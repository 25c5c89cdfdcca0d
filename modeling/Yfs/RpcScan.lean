/-
# Which remembered requests the scan recognises

`checkduplicate_and_update` looks for the entry of a request in a list from which it erases other
entries at the same time, and steps over the entry after each one it erases.  This file says exactly
when the entry it looks for is found.

* `acked r` marks the entries that a request with `xid_rep = r` lets the server erase.
* A pass over a list without the xid halves the row of such entries at its end (`trailing_kept`) and
  runs past the end when the row has an odd length (`pass_stop_iff`).
* `pass_append_of_pastEnd`, `pass_append_of_atEnd`: a pass over two lists, one after the other.  In the
  first case it steps over the entry in between.
* `scan_found_iff`: with `k` such entries right before the entry and `m` at the end of the list, the
  entry is found if and only if every power of two that divides `k + 1` divides `m + 1`.
* `pass_exact_iff`: a pass that finds no entry erases exactly the acknowledged ones, in bounds, if and
  only if they stand apart: an unacknowledged entry follows each of them (`Apart`).
-/
import Yfs.Rpcs

namespace Rpcs

/-- The entries up to `xidRep`, which the loop erases when it looks at them. -/
def acked (xidRep : ℕ) (e : ReplyEntry) : Bool := decide (e.xid ≤ xidRep)

/-! ## Rows of acknowledged entries -/

theorem trailing_cons_of_not_all {α : Type*} {p : α → Bool} (a : α) {l : List α}
    (h : l.all p = false) : trailing p (a :: l) = trailing p l := by
  rw [trailing, h, Bool.and_false, if_neg (by simp)]

theorem trailing_cons_of_all {α : Type*} {p : α → Bool} {a : α} {l : List α} (ha : p a = true)
    (h : l.all p = true) : trailing p (a :: l) = trailing p l + 1 := by
  rw [trailing, ha, h, Bool.and_true, if_pos rfl, trailing_of_all h]

section Pass

variable (xid xidRep : ℕ)

/-- A pass leaves an unacknowledged entry when there is one, and else only acknowledged ones. -/
theorem all_kept (w : List ReplyEntry) :
    (pass xid xidRep w).kept.all (acked xidRep) = w.all (acked xidRep) := by
  have hp := pass_prunes xid xidRep w
  cases hall : w.all (acked xidRep) with
  | true =>
    rw [List.all_eq_true] at hall ⊢
    intro e he
    exact hall e (hp.sublist.subset he)
  | false =>
    rw [List.all_eq_false] at hall ⊢
    obtain ⟨e, he, hno⟩ := hall
    refine ⟨e, ?_, hno⟩
    by_contra hk
    exact hno (decide_eq_true (hp.keeps e he hk))

/-- **A pass halves the row of acknowledged entries at the end of the list.** -/
theorem trailing_kept {w : List ReplyEntry} (hw : ∀ e ∈ w, e.xid ≠ xid) :
    trailing (acked xidRep) (pass xid xidRep w).kept = trailing (acked xidRep) w / 2 := by
  induction w using pass.induct xid xidRep with
  | case1 => simp [pass, trailing]
  | case2 e es hx => exact absurd hx (hw e (by simp))
  | case3 e hx hle =>
    rw [pass_last xid xidRep hx hle]
    simp [trailing, acked, hle]
  | case4 e hx hle e' es' ih =>
    have ih := ih (fun x hx' => hw x (by simp [hx']))
    have hkept := all_kept xid xidRep es'
    have he : acked xidRep e = true := decide_eq_true hle
    rw [pass_erase xid xidRep e' es' hx hle]
    cases hall : es'.all (acked xidRep) with
    | false =>
      -- the row lies in the part after the two entries
      rw [trailing_cons_of_not_all e (by simp [hall]), trailing_cons_of_not_all e' hall,
        trailing_cons_of_not_all e' (hkept.trans hall)]
      exact ih
    | true =>
      cases he' : acked xidRep e' with
      | false =>
        rw [trailing_cons_of_not_all e (by simp [he']), trailing_cons_of_not _ he',
          trailing_cons_of_not _ he']
        exact ih
      | true =>
        -- the row is the whole list: of the two entries in front one is kept
        rw [trailing_cons_of_all he (by simp [he', hall]), trailing_cons_of_all he' hall,
          trailing_cons_of_all he' (hkept.trans hall), ih]
        omega
  | case5 e es hx hle ih =>
    have he : acked xidRep e = false := decide_eq_false hle
    rw [pass_keep xid xidRep es hx hle, trailing_cons_of_not _ he, trailing_cons_of_not _ he]
    exact ih (fun x hx' => hw x (by simp [hx']))

/-- A pass that meets no entry of the xid runs past the end when the row at the end is odd. -/
theorem pass_stop_iff {w : List ReplyEntry} (hw : ∀ e ∈ w, e.xid ≠ xid) :
    (pass xid xidRep w).stop =
      if Odd (trailing (acked xidRep) w) then .pastEnd else .atEnd := by
  induction w using pass.induct xid xidRep with
  | case1 => rfl
  | case2 e es hx => exact absurd hx (hw e (by simp))
  | case3 e hx hle =>
    rw [pass_last xid xidRep hx hle]
    simp [trailing, acked, hle]
  | case4 e hx hle e' es' ih =>
    rw [pass_erase xid xidRep e' es' hx hle, ih (fun x hx' => hw x (by simp [hx']))]
    have he : acked xidRep e = true := decide_eq_true hle
    -- the two entries in front add 0 or 2 to the row
    have hparity : Odd (trailing (acked xidRep) (e :: e' :: es')) ↔
        Odd (trailing (acked xidRep) es') := by
      cases hall : es'.all (acked xidRep) with
      | false =>
        rw [trailing_cons_of_not_all e (by simp [hall]), trailing_cons_of_not_all e' hall]
      | true =>
        cases he' : acked xidRep e' with
        | false => rw [trailing_cons_of_not_all e (by simp [he']), trailing_cons_of_not _ he']
        | true =>
          rw [trailing_cons_of_all he (by simp [he', hall]), trailing_cons_of_all he' hall]
          exact Nat.odd_add_one.trans (not_congr Nat.odd_add_one) |>.trans not_not
    simp only [hparity]
  | case5 e es hx hle ih =>
    have he : acked xidRep e = false := decide_eq_false hle
    rw [pass_keep xid xidRep es hx hle, trailing_cons_of_not _ he]
    exact ih (fun x hx' => hw x (by simp [hx']))

/-! ## A pass over two lists -/

/-- A pass that runs past the end of `pre` steps over the entry that follows `pre`, whatever its xid
is. -/
theorem pass_append_of_pastEnd {pre : List ReplyEntry} (e : ReplyEntry) (post : List ReplyEntry)
    (h : (pass xid xidRep pre).stop = .pastEnd) :
    (pass xid xidRep (pre ++ e :: post)).kept =
        (pass xid xidRep pre).kept ++ e :: (pass xid xidRep post).kept ∧
      (pass xid xidRep (pre ++ e :: post)).stop = (pass xid xidRep post).stop := by
  induction pre using pass.induct xid xidRep with
  | case1 => simp [pass] at h
  | case2 x xs hx => simp [pass_found xid xidRep xs hx] at h
  | case3 x hx hle =>
    rw [List.singleton_append, pass_erase xid xidRep e post hx hle, pass_last xid xidRep hx hle]
    exact ⟨rfl, rfl⟩
  | case4 x hx hle y ys ih =>
    rw [pass_erase xid xidRep y ys hx hle] at h
    rw [List.cons_append, List.cons_append, pass_erase xid xidRep y _ hx hle,
      pass_erase xid xidRep y ys hx hle]
    obtain ⟨hkept, hstop⟩ := ih h
    exact ⟨congrArg (y :: ·) hkept, hstop⟩
  | case5 x xs hx hle ih =>
    rw [pass_keep xid xidRep xs hx hle] at h
    rw [List.cons_append, pass_keep xid xidRep _ hx hle, pass_keep xid xidRep xs hx hle]
    obtain ⟨hkept, hstop⟩ := ih h
    exact ⟨congrArg (x :: ·) hkept, hstop⟩

/-- A pass that ends at the end of `pre` goes on with what follows. -/
theorem pass_append_of_atEnd {pre : List ReplyEntry} (post : List ReplyEntry)
    (h : (pass xid xidRep pre).stop = .atEnd) :
    (pass xid xidRep (pre ++ post)).stop = (pass xid xidRep post).stop := by
  induction pre using pass.induct xid xidRep with
  | case1 => rfl
  | case2 x xs hx => simp [pass_found xid xidRep xs hx] at h
  | case3 x hx hle => simp [pass_last xid xidRep hx hle] at h
  | case4 x hx hle y ys ih =>
    rw [pass_erase xid xidRep y ys hx hle] at h
    rw [List.cons_append, List.cons_append, pass_erase xid xidRep y _ hx hle]
    exact ih h
  | case5 x xs hx hle ih =>
    rw [pass_keep xid xidRep xs hx hle] at h
    rw [List.cons_append, pass_keep xid xidRep _ hx hle]
    exact ih h

/-! ## The whole loop -/

/-- Every power of two that divides `a` divides `b`. -/
def TwoPowerDvd (a b : ℕ) : Prop := ∀ j, 2 ^ j ∣ a → 2 ^ j ∣ b

theorem twoPowerDvd_of_odd {a : ℕ} (b : ℕ) (h : Odd a) : TwoPowerDvd a b := by
  intro j hj
  cases j with
  | zero => simp
  | succ j =>
    have h2 : 2 ∣ a := (dvd_pow_self 2 (Nat.succ_ne_zero j)).trans hj
    exact absurd (even_iff_two_dvd.2 h2) (Nat.not_even_iff_odd.2 h)

theorem not_twoPowerDvd {a b : ℕ} (ha : Even a) (hb : Odd b) : ¬ TwoPowerDvd a b := by
  intro h
  have h2 : 2 ^ 1 ∣ b := h 1 (even_iff_two_dvd.1 ha)
  exact absurd (even_iff_two_dvd.2 h2) (Nat.not_even_iff_odd.2 hb)

theorem twoPowerDvd_two_mul (a b : ℕ) : TwoPowerDvd (2 * a) (2 * b) ↔ TwoPowerDvd a b := by
  constructor
  · intro h j hj
    have := h (j + 1) (by rw [pow_succ']; exact Nat.mul_dvd_mul_left 2 hj)
    rw [pow_succ'] at this
    exact Nat.dvd_of_mul_dvd_mul_left two_pos this
  · intro h j hj
    cases j with
    | zero => simp
    | succ j =>
      rw [pow_succ'] at hj ⊢
      exact Nat.mul_dvd_mul_left 2 (h j (Nat.dvd_of_mul_dvd_mul_left two_pos hj))

/-- **When the loop finds the entry of the xid**, in terms of the acknowledged entries that stand in a
row right before it and at the end of the list. -/
theorem scan_found_iff (n : ℕ) {e : ReplyEntry} (pre post : List ReplyEntry) (he : e.xid = xid)
    (hpre : ∀ x ∈ pre, x.xid ≠ xid) (hpost : ∀ x ∈ post, x.xid ≠ xid)
    (hn : (pre ++ e :: post).length < n) :
    (scan xid xidRep n (pre ++ e :: post)).stop = .found e ↔
      TwoPowerDvd (trailing (acked xidRep) pre + 1) (trailing (acked xidRep) post + 1) := by
  induction n generalizing pre post with
  | zero => omega
  | succ n ih =>
    have hstopPre := pass_stop_iff xid xidRep hpre
    have hstopPost := pass_stop_iff xid xidRep hpost
    rw [scan]
    by_cases hk : Odd (trailing (acked xidRep) pre)
    · -- the pass steps over the entry
      rw [if_pos hk] at hstopPre
      obtain ⟨hkept, hstop⟩ := pass_append_of_pastEnd xid xidRep e post hstopPre
      by_cases hm : Odd (trailing (acked xidRep) post)
      · -- and comes back to it, with both rows halved
        rw [if_pos hm] at hstopPost
        rw [if_pos (hstop.trans hstopPost), hkept]
        have hlen := length_lt_of_pastEnd xid xidRep _ (hstop.trans hstopPost)
        rw [hkept] at hlen
        have hsub₁ := (pass_prunes xid xidRep pre).sublist.subset
        have hsub₂ := (pass_prunes xid xidRep post).sublist.subset
        show (scan xid xidRep n _).stop = _ ↔ _
        rw [ih _ _ (fun x hx => hpre x (hsub₁ hx)) (fun x hx => hpost x (hsub₂ hx)) (by omega),
          trailing_kept xid xidRep hpre, trailing_kept xid xidRep hpost, ← twoPowerDvd_two_mul]
        obtain ⟨k, hk⟩ := hk
        obtain ⟨m, hm⟩ := hm
        have h₁ : 2 * (trailing (acked xidRep) pre / 2 + 1) = trailing (acked xidRep) pre + 1 := by
          omega
        have h₂ : 2 * (trailing (acked xidRep) post / 2 + 1) = trailing (acked xidRep) post + 1 := by
          omega
        rw [h₁, h₂]
      · -- or the loop ends without it
        rw [if_neg hm] at hstopPost
        rw [if_neg (by rw [hstop, hstopPost]; decide), hstop, hstopPost]
        refine iff_of_false (by simp) ?_
        exact not_twoPowerDvd hk.add_one (Nat.not_odd_iff_even.1 hm).add_one
    · rw [if_neg hk] at hstopPre
      have hstop := pass_append_of_atEnd xid xidRep (e :: post) hstopPre
      rw [pass_found xid xidRep post he] at hstop
      rw [if_neg (by rw [hstop]; simp), hstop]
      exact iff_of_true rfl (twoPowerDvd_of_odd _ (Nat.not_odd_iff_even.1 hk).add_one)

end Pass

/-! ## The classification of a remembered request -/

/-- What the server should say of a request whose entry is `e`. -/
def remembered (e : ReplyEntry) : RpcState :=
  match e.buf with
  | some b => .DONE b
  | none => .INPROGRESS

theorem remembered_ne_new (e : ReplyEntry) : remembered e ≠ .NEW := by
  unfold remembered
  cases e.buf <;> simp

/-- The classification of a request that is not below the recorded maximum. -/
theorem checkduplicate_eq_remembered_iff {s : Rpcs} {c xid xidRep : ℕ} (e : ReplyEntry)
    (hmax : ¬ xid < (s.maximaXidRep c).getD xidRep)
    (honly : ∀ x ∈ s.window c, x.xid = xid → x = e) :
    (s.checkduplicateAndUpdate c xid xidRep).1 = remembered e ↔
      (s.scanned c xid xidRep).stop = .found e := by
  have hp : Prunes xid xidRep (s.window c) (s.scanned c xid xidRep) := scan_prunes xid xidRep _ _
  unfold checkduplicateAndUpdate
  dsimp only
  rw [if_neg hmax]
  cases hstop : (s.scanned c xid xidRep).stop with
  | found x =>
    obtain ⟨hx, hxid⟩ := hp.found x hstop
    obtain rfl := honly x hx hxid
    exact iff_of_true rfl rfl
  | atEnd => exact iff_of_false (remembered_ne_new e).symm (by simp)
  | pastEnd => exact iff_of_false (remembered_ne_new e).symm (by simp)

/-- **When a remembered request is recognised, exactly.**  The window holds an entry `e` for the xid,
with `k` entries of xids up to `xidRep` in an unbroken row right before it and `m` of them in an
unbroken row at the end of the window (after `e`).  The request is answered from `e` if and only if
every power of two that divides `k + 1` divides `m + 1`; so in particular when `k` is even. -/
theorem remembered_iff {s : Rpcs} {c xid xidRep : ℕ} {e : ReplyEntry} {pre post : List ReplyEntry}
    (hw : s.window c = pre ++ e :: post) (hdistinct : ((s.window c).map ReplyEntry.xid).Nodup)
    (he : e.xid = xid) (hrep : xidRep < xid) (hmax : ∀ m, s.maximaXidRep c = some m → m ≤ xid) :
    (s.checkduplicateAndUpdate c xid xidRep).1 = remembered e ↔
      ∀ j, 2 ^ j ∣ trailing (acked xidRep) pre + 1 → 2 ^ j ∣ trailing (acked xidRep) post + 1 := by
  rw [hw, List.map_append, List.map_cons, List.nodup_append, List.nodup_cons] at hdistinct
  obtain ⟨-, ⟨hnot, -⟩, hdisj⟩ := hdistinct
  have hpre : ∀ x ∈ pre, x.xid ≠ xid := by
    intro x hx
    rw [← he]
    exact hdisj x.xid (List.mem_map_of_mem hx) e.xid (by simp)
  have hpost : ∀ x ∈ post, x.xid ≠ xid := by
    intro x hx heq
    rw [he, ← heq] at hnot
    exact hnot (List.mem_map_of_mem hx)
  have hlt : ¬ xid < (s.maximaXidRep c).getD xidRep := by
    cases hm : s.maximaXidRep c with
    | none => simpa using hrep.le
    | some m => simpa using hmax m hm
  rw [checkduplicate_eq_remembered_iff e hlt, scanned, hw]
  · exact scan_found_iff xid xidRep _ pre post he hpre hpost (Nat.lt_succ_self _)
  · intro x hx hxid
    rw [hw, List.mem_append, List.mem_cons] at hx
    rcases hx with hx | rfl | hx
    · exact absurd hxid (hpre x hx)
    · rfl
    · exact absurd hxid (hpost x hx)

/-- A server that remembers these entries of client 1. -/
def remembering (w : List ReplyEntry) : Rpcs :=
  { nonce := 9, replyWindow := StdMap.set (fun _ => none) 1 w }

/-- One acknowledged entry before the request and one after it: the pass steps over the request, runs
past the end, and finds it the second time. -/
theorem remembered_second_pass :
    let s := remembering [⟨1, none⟩, ⟨3, none⟩, ⟨2, none⟩]
    (s.checkduplicateAndUpdate 1 3 2).1 = .INPROGRESS := by
  intro s
  refine (@remembered_iff s 1 3 2 ⟨3, none⟩ [⟨1, none⟩] [⟨2, none⟩] rfl (by decide) rfl
    (by decide) (by simp [s, remembering])).mpr ?_
  intro j hj
  exact hj

/-- One acknowledged entry right before the request: the server takes the request for a new one. -/
theorem remembered_taken_for_new :
    ¬ ∀ (s : Rpcs) (c xid xidRep : ℕ) (e : ReplyEntry), ((s.window c).map ReplyEntry.xid).Nodup →
      xidRep < xid → (∀ m, s.maximaXidRep c = some m → m ≤ xid) → e ∈ s.window c → e.xid = xid →
      (s.checkduplicateAndUpdate c xid xidRep).1 = remembered e ∧
        (s.checkduplicateAndUpdate c xid xidRep).1 ≠ .NEW := by
  intro h
  have := h (remembering [⟨1, none⟩, ⟨2, none⟩]) 1 2 1 ⟨2, none⟩ (by decide) (by decide)
    (by simp [remembering]) (by decide) rfl
  exact absurd this.2 (by decide)

/-! ## What a new request leaves of the window -/

/-- Directly after every element of the list that satisfies `p` stands one that does not. -/
def Apart {α : Type*} (p : α → Bool) (l : List α) : Prop :=
  ∀ pre a post, l = pre ++ a :: post → p a = true → ∃ b, post.head? = some b ∧ p b = false

section Apart

variable {α : Type*} {p : α → Bool}

theorem apart_nil : Apart p [] := by
  intro pre a post h
  simp at h

theorem apart_cons (a : α) (l : List α) :
    Apart p (a :: l) ↔ (p a = true → ∃ b, l.head? = some b ∧ p b = false) ∧ Apart p l := by
  constructor
  · intro h
    refine ⟨h [] a l rfl, ?_⟩
    intro pre b post hl
    exact h (a :: pre) b post (by rw [hl, List.cons_append])
  · rintro ⟨hhead, htail⟩ pre b post hl hb
    rw [List.cons_eq_append_iff] at hl
    rcases hl with ⟨rfl, hl⟩ | ⟨pre', rfl, hl⟩
    · obtain ⟨rfl, rfl⟩ := List.cons.inj hl
      exact hhead hb
    · exact htail pre' b post hl hb

end Apart

/-- The entries beyond `xidRep`. -/
def unacked (xidRep : ℕ) (w : List ReplyEntry) : List ReplyEntry :=
  w.filter fun e => !acked xidRep e

/-- A pass that finds no entry of the xid stays in bounds and leaves exactly the unacknowledged
entries, if and only if the acknowledged ones stand apart. -/
theorem pass_exact_iff (xid xidRep : ℕ) (w : List ReplyEntry)
    (hnone : ∀ e, (pass xid xidRep w).stop ≠ .found e) :
    (pass xid xidRep w).stop ≠ .pastEnd ∧ (pass xid xidRep w).kept = unacked xidRep w ↔
      Apart (acked xidRep) w := by
  induction w using pass.induct xid xidRep with
  | case1 => exact iff_of_true (by simp [pass, unacked]) apart_nil
  | case2 e es hx =>
    rw [pass_found xid xidRep es hx] at hnone
    exact absurd rfl (hnone e)
  | case3 e hx hle =>
    have he : acked xidRep e = true := decide_eq_true hle
    rw [pass_last xid xidRep hx hle, apart_cons]
    refine iff_of_false (by simp) ?_
    rintro ⟨hhead, -⟩
    obtain ⟨b, hb, -⟩ := hhead he
    simp at hb
  | case4 e hx hle e' es' ih =>
    have he : acked xidRep e = true := decide_eq_true hle
    rw [pass_erase xid xidRep e' es' hx hle] at hnone ⊢
    rw [apart_cons, apart_cons, ← ih hnone]
    cases he' : acked xidRep e' with
    | true =>
      -- `e'` is stepped over, so it stays although it is acknowledged
      refine iff_of_false ?_ (by simp [he, he'])
      rintro ⟨-, hkept⟩
      have hmem : e' ∈ unacked xidRep (e :: e' :: es') := hkept ▸ List.mem_cons_self
      simp [unacked, he'] at hmem
    | false => simp [unacked, he, he']
  | case5 e es hx hle ih =>
    have he : acked xidRep e = false := decide_eq_false hle
    rw [pass_keep xid xidRep es hx hle] at hnone ⊢
    rw [apart_cons, ← ih hnone]
    simp [unacked, he]

/-- The windows of the other clients are unchanged. -/
theorem window_checkduplicate_of_ne (s : Rpcs) {c c' : ℕ} (xid xidRep : ℕ) (h : c' ≠ c) :
    (s.checkduplicateAndUpdate c xid xidRep).2.2.window c' = s.window c' := by
  unfold checkduplicateAndUpdate window
  dsimp only
  split_ifs
  · rfl
  · split <;> exact StdMap.get_set_of_ne _ _ h

/-- What a request that is taken for a new one does to the window of its client. -/
theorem checkduplicate_of_new {s : Rpcs} {c xid xidRep : ℕ}
    (hnew : (s.checkduplicateAndUpdate c xid xidRep).1 = .NEW) :
    (∀ e, (s.scanned c xid xidRep).stop ≠ .found e) ∧
      (s.checkduplicateAndUpdate c xid xidRep).2.2.window c =
        (s.scanned c xid xidRep).kept ++ [⟨xid, none⟩] := by
  unfold checkduplicateAndUpdate at hnew ⊢
  dsimp only at hnew ⊢
  by_cases hmax : xid < (s.maximaXidRep c).getD xidRep
  · simp [hmax] at hnew
  · rw [if_neg hmax] at hnew ⊢
    cases hstop : (s.scanned c xid xidRep).stop with
    | found e =>
      rw [hstop] at hnew
      exact absurd hnew (remembered_ne_new e)
    | atEnd => exact ⟨by simp, StdMap.get_set_self _ _ _⟩
    | pastEnd => exact ⟨by simp, StdMap.get_set_self _ _ _⟩

/-- The loop is one pass when that pass stays in bounds. -/
theorem scanned_of_pass {s : Rpcs} {c xid xidRep : ℕ}
    (h : (pass xid xidRep (s.window c)).stop ≠ .pastEnd) :
    s.scanned c xid xidRep = pass xid xidRep (s.window c) := by
  rw [scanned, scan]
  exact if_neg h

/-- **When pruning is complete, exact and in bounds.**  A request that is taken for a new one leaves
its client's window without exactly the acknowledged entries and with a fresh entry at the end, having
never incremented the past-the-end iterator, if and only if an unacknowledged entry stands directly
after each acknowledged one.  The windows of the other clients never change. -/
theorem pruned_iff {s : Rpcs} {c xid xidRep : ℕ}
    (hnew : (s.checkduplicateAndUpdate c xid xidRep).1 = .NEW) :
    ((pass xid xidRep (s.window c)).stop ≠ .pastEnd ∧
      (s.checkduplicateAndUpdate c xid xidRep).2.2.window c =
        (s.window c).filter (fun e => !decide (e.xid ≤ xidRep)) ++ [⟨xid, none⟩] ∧
      ∀ c', c' ≠ c → (s.checkduplicateAndUpdate c xid xidRep).2.2.window c' = s.window c') ↔
    ∀ pre e post, s.window c = pre ++ e :: post → e.xid ≤ xidRep →
      ∃ e', post.head? = some e' ∧ xidRep < e'.xid := by
  obtain ⟨hnone, hwindow⟩ := checkduplicate_of_new hnew
  have hother : ∀ c', c' ≠ c →
      (s.checkduplicateAndUpdate c xid xidRep).2.2.window c' = s.window c' :=
    fun c' h => window_checkduplicate_of_ne s xid xidRep h
  have happart : Apart (acked xidRep) (s.window c) ↔ ∀ pre e post, s.window c = pre ++ e :: post →
      e.xid ≤ xidRep → ∃ e', post.head? = some e' ∧ xidRep < e'.xid := by
    simp only [Apart, acked, decide_eq_true_eq, decide_eq_false_iff_not, not_le]
  -- had the first pass found an entry, the request would not be new
  have hpass : ∀ e, (pass xid xidRep (s.window c)).stop ≠ .found e := by
    intro e he
    rw [scanned_of_pass (by rw [he]; simp)] at hnone
    exact hnone e he
  rw [← happart, ← pass_exact_iff xid xidRep _ hpass]
  constructor
  · rintro ⟨hin, hw, -⟩
    rw [hwindow, scanned_of_pass hin] at hw
    exact ⟨hin, List.append_cancel_right hw⟩
  · rintro ⟨hin, hkept⟩
    refine ⟨hin, ?_, hother⟩
    rw [hwindow, scanned_of_pass hin, hkept]
    rfl

/-- An acknowledged entry between two others is erased, and nothing else. -/
theorem pruned_between :
    let s := remembering [⟨3, none⟩, ⟨1, none⟩, ⟨4, none⟩]
    (s.checkduplicateAndUpdate 1 5 2).2.2.window 1 = [⟨3, none⟩, ⟨4, none⟩, ⟨5, none⟩] := by
  intro s
  have h := (@pruned_iff s 1 5 2 (by decide)).mpr ?_
  · exact h.2.1.trans (by decide)
  · have hw : s.window 1 = [⟨3, none⟩, ⟨1, none⟩, ⟨4, none⟩] := rfl
    rw [hw]
    have happart : Apart (acked 2) [⟨3, none⟩, ⟨1, none⟩, ⟨4, none⟩] := by
      simp [apart_cons, apart_nil, acked]
    intro pre e post hsplit he
    obtain ⟨b, hb, hno⟩ := happart pre e post hsplit (decide_eq_true he)
    exact ⟨b, hb, not_le.1 (of_decide_eq_false hno)⟩

/-- A single acknowledged entry: the loop erases it and increments the past-the-end iterator. -/
theorem pruning_past_end :
    ¬ ∀ (s : Rpcs) (c xid xidRep : ℕ), (s.checkduplicateAndUpdate c xid xidRep).1 = .NEW →
      (pass xid xidRep (s.window c)).stop ≠ .pastEnd ∧
      (s.checkduplicateAndUpdate c xid xidRep).2.2.window c =
        (s.window c).filter (fun e => !decide (e.xid ≤ xidRep)) ++ [⟨xid, none⟩] ∧
      ∀ c', c' ≠ c → (s.checkduplicateAndUpdate c xid xidRep).2.2.window c' = s.window c' := by
  intro h
  have := (h (remembering [⟨1, none⟩]) 1 2 1 (by decide)).1
  exact absurd this (by decide)

end Rpcs
