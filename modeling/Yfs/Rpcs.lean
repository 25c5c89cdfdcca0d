/-
# The at-most-once window of the RPC server (`rpc/rpc.cc`, class `rpcs`)

For every client nonce the server remembers the requests it has seen in a list, the reply window, and
the largest `xid_rep` it has been told.  `checkduplicateAndUpdate` classifies a request and prunes the
entries the client has acknowledged, `addReply` stores the reply of a finished request.  Both run
under the mutex `reply_window_m_`, so they are atomic.

The scan of the window is modelled as the C++ code runs it.  After `it = window.erase(it)` the loop
still increments `it`, so the entry after an erased one is not looked at; and when the erased entry was
the last one, the past-the-end iterator is incremented, which in a `std::list` (a circle through its
sentinel) leads back to the first entry.

* `cb_present`, `buf` and `sz` of an entry are set together by `add_reply`: `buf` is an option.
* A reply buffer is its bytes, which do not change after it has been packed, and a number that stands
  for its address.  What the scan frees is part of its result.
-/
import Yfs.Rpcc

/-- A packed reply and its address. -/
structure Buf where
  id : ℕ
  reply : RpcReply
  deriving DecidableEq, Repr

/-- `rpcs::reply_t`; `buf` is present when `cb_present` is set. -/
structure ReplyEntry where
  xid : ℕ
  buf : Option Buf
  deriving DecidableEq, Repr

/-- The state of `rpcs` that its requests share. -/
structure Rpcs where
  nonce : ℕ
  replyWindow : StdMap ℕ (List ReplyEntry) := fun _ => none
  maximaXidRep : StdMap ℕ ℕ := fun _ => none

/-- `rpcs::rpcstate_t`, with the buffer that comes with `DONE`. -/
inductive RpcState
  | NEW
  | INPROGRESS
  | DONE (b : Buf)
  | FORGOTTEN
  deriving DecidableEq, Repr

namespace Rpcs

/-! ## The scan -/

/-- Why a pass over the window has stopped: at an entry of the same xid, at the end, or by
incrementing the past-the-end iterator. -/
inductive Stop
  | found (e : ReplyEntry)
  | atEnd
  | pastEnd
  deriving DecidableEq, Repr

/-- A pass over the window: the list it leaves, the buffers it has freed, and its end. -/
structure Pass where
  kept : List ReplyEntry
  freed : List ℕ
  stop : Stop
  deriving DecidableEq, Repr

/-- `free(it->buf)`. -/
def freeBuf (e : ReplyEntry) : List ℕ := (e.buf.map Buf.id).toList

/-- The loop from an entry to the end of the list. -/
def pass (xid xidRep : ℕ) : List ReplyEntry → Pass
  | [] => ⟨[], [], .atEnd⟩
  | e :: es =>
    if e.xid = xid then ⟨e :: es, [], .found e⟩
    else if e.xid ≤ xidRep then
      match es with
      | [] => ⟨[], freeBuf e, .pastEnd⟩
      | e' :: es' =>
        let p := pass xid xidRep es'
        ⟨e' :: p.kept, freeBuf e ++ p.freed, p.stop⟩
    else
      let p := pass xid xidRep es
      ⟨e :: p.kept, p.freed, p.stop⟩

/-- The whole loop: a pass that runs past the end starts again at the first entry.  Such a pass has
erased an entry, so that `window.length + 1` passes are enough (`scan_stop`). -/
def scan (xid xidRep : ℕ) : ℕ → List ReplyEntry → Pass
  | 0, w => ⟨w, [], .pastEnd⟩
  | n + 1, w =>
    let p := pass xid xidRep w
    if p.stop = .pastEnd then
      let p' := scan xid xidRep n p.kept
      ⟨p'.kept, p.freed ++ p'.freed, p'.stop⟩
    else p

/-! ## The critical sections -/

/-- The window of a client. -/
def window (s : Rpcs) (cltNonce : ℕ) : List ReplyEntry := s.replyWindow.get cltNonce

/-- The loop over the window of a client. -/
def scanned (s : Rpcs) (cltNonce xid xidRep : ℕ) : Pass :=
  scan xid xidRep ((s.window cltNonce).length + 1) (s.window cltNonce)

/-- `checkduplicate_and_update`: the classification, the buffers freed and the new state. -/
def checkduplicateAndUpdate (s : Rpcs) (cltNonce xid xidRep : ℕ) : RpcState × List ℕ × Rpcs :=
  -- a client that has not been seen before starts with the `xid_rep` of this request
  let maximum := (s.maximaXidRep cltNonce).getD xidRep
  if xid < maximum then
    (.FORGOTTEN, [], { s with maximaXidRep := s.maximaXidRep.set cltNonce maximum })
  else
    let maxima := s.maximaXidRep.set cltNonce (max maximum xidRep)
    let p := s.scanned cltNonce xid xidRep
    match p.stop with
    | .found e =>
      (match e.buf with
        | some b => .DONE b
        | none => .INPROGRESS,
        p.freed,
        { s with maximaXidRep := maxima, replyWindow := s.replyWindow.set cltNonce p.kept })
    | _ =>
      (.NEW, p.freed,
        { s with
          maximaXidRep := maxima
          replyWindow := s.replyWindow.set cltNonce (p.kept ++ [⟨xid, none⟩]) })

/-- The loop of `add_reply`: the first entry of the xid gets the buffer. -/
def storeReply (xid : ℕ) (b : Buf) : List ReplyEntry → List ReplyEntry
  | [] => []
  | e :: es => if e.xid = xid then { e with buf := some b } :: es else e :: storeReply xid b es

/-- `add_reply`. -/
def addReply (s : Rpcs) (cltNonce xid : ℕ) (b : Buf) : Rpcs :=
  { s with
    replyWindow := s.replyWindow.set cltNonce (storeReply xid b (s.replyWindow.get cltNonce)) }

/-! ## What the scan keeps and frees -/

section Scan

variable (xid xidRep : ℕ)

theorem pass_found {e : ReplyEntry} (es : List ReplyEntry) (hx : e.xid = xid) :
    pass xid xidRep (e :: es) = ⟨e :: es, [], .found e⟩ := by
  rw [pass.eq_def]
  exact if_pos hx

theorem pass_last {e : ReplyEntry} (hx : e.xid ≠ xid) (hle : e.xid ≤ xidRep) :
    pass xid xidRep [e] = ⟨[], freeBuf e, .pastEnd⟩ := by
  rw [pass.eq_def]
  show (if _ then _ else if _ then _ else _) = _
  rw [if_neg hx, if_pos hle]

/-- The entry after an erased one is not looked at. -/
theorem pass_erase {e : ReplyEntry} (e' : ReplyEntry) (es : List ReplyEntry) (hx : e.xid ≠ xid)
    (hle : e.xid ≤ xidRep) :
    pass xid xidRep (e :: e' :: es) = ⟨e' :: (pass xid xidRep es).kept,
      freeBuf e ++ (pass xid xidRep es).freed, (pass xid xidRep es).stop⟩ := by
  rw [pass.eq_def]
  show (if _ then _ else if _ then _ else _) = _
  rw [if_neg hx, if_pos hle]

theorem pass_keep {e : ReplyEntry} (es : List ReplyEntry) (hx : e.xid ≠ xid)
    (hle : ¬ e.xid ≤ xidRep) :
    pass xid xidRep (e :: es) = ⟨e :: (pass xid xidRep es).kept, (pass xid xidRep es).freed,
      (pass xid xidRep es).stop⟩ := by
  rw [pass.eq_def]
  show (if _ then _ else if _ then _ else _) = _
  rw [if_neg hx, if_neg hle]

/-- What a pass or a scan over `w` may do: it keeps the entries beyond `xidRep` and adds none, it
frees buffers of entries up to `xidRep` only, and it stops at an entry of `w` with the xid. -/
structure Prunes (xid xidRep : ℕ) (w : List ReplyEntry) (p : Pass) : Prop where
  sublist : p.kept.Sublist w
  keeps : ∀ e ∈ w, e ∉ p.kept → e.xid ≤ xidRep
  frees : ∀ i ∈ p.freed, ∃ e ∈ w, e.xid ≤ xidRep ∧ i ∈ freeBuf e
  found : ∀ e, p.stop = .found e → e ∈ w ∧ e.xid = xid

theorem pass_prunes (w : List ReplyEntry) : Prunes xid xidRep w (pass xid xidRep w) := by
  induction w using pass.induct xid xidRep with
  | case1 =>
    rw [pass]
    exact ⟨List.Sublist.refl _, by simp, by simp, by simp⟩
  | case2 e es hx =>
    rw [pass_found xid xidRep es hx]
    refine ⟨List.Sublist.refl _, fun x hx hnot => absurd hx hnot, by simp, ?_⟩
    intro x hstop
    obtain rfl : e = x := by simpa using hstop
    exact ⟨by simp, hx⟩
  | case3 e hx hle =>
    rw [pass_last xid xidRep hx hle]
    refine ⟨List.nil_sublist _, ?_, fun i hi => ⟨e, by simp, hle, hi⟩, by simp⟩
    intro x hx' _
    obtain rfl := List.mem_singleton.1 hx'
    exact hle
  | case4 e hx hle e' es' ih =>
    rw [pass_erase xid xidRep e' es' hx hle]
    refine ⟨(ih.sublist.cons_cons e').cons e, ?_, ?_, ?_⟩
    · intro x hx' hnot
      rcases List.mem_cons.1 hx' with rfl | hx'
      · exact hle
      · rcases List.mem_cons.1 hx' with rfl | hx'
        · exact absurd (by simp) hnot
        · exact ih.keeps x hx' (fun h => hnot (List.mem_cons_of_mem _ h))
    · intro i hi
      rcases List.mem_append.1 hi with hi | hi
      · exact ⟨e, by simp, hle, hi⟩
      · obtain ⟨x, hx', h⟩ := ih.frees i hi
        exact ⟨x, by simp [hx'], h⟩
    · intro x hstop
      obtain ⟨hx', h⟩ := ih.found x hstop
      exact ⟨by simp [hx'], h⟩
  | case5 e es hx hle ih =>
    rw [pass_keep xid xidRep es hx hle]
    refine ⟨ih.sublist.cons_cons e, ?_, ?_, ?_⟩
    · intro x hx' hnot
      rcases List.mem_cons.1 hx' with rfl | hx'
      · exact absurd (by simp) hnot
      · exact ih.keeps x hx' (fun h => hnot (List.mem_cons_of_mem _ h))
    · intro i hi
      obtain ⟨x, hx', h⟩ := ih.frees i hi
      exact ⟨x, by simp [hx'], h⟩
    · intro x hstop
      obtain ⟨hx', h⟩ := ih.found x hstop
      exact ⟨by simp [hx'], h⟩

/-- **The scan prunes only what is acknowledged.** -/
theorem scan_prunes (n : ℕ) (w : List ReplyEntry) : Prunes xid xidRep w (scan xid xidRep n w) := by
  induction n generalizing w with
  | zero =>
    rw [scan]
    exact ⟨List.Sublist.refl _, fun x hx hnot => absurd hx hnot, by simp, by simp⟩
  | succ n ih =>
    have hp := pass_prunes xid xidRep w
    rw [scan]
    split_ifs with hstop
    · -- the next pass starts with what this one has kept
      have hs := ih (pass xid xidRep w).kept
      refine ⟨hs.sublist.trans hp.sublist, ?_, ?_, ?_⟩
      · intro e he hnot
        by_cases hk : e ∈ (pass xid xidRep w).kept
        · exact hs.keeps e hk hnot
        · exact hp.keeps e he hk
      · intro i hi
        rcases List.mem_append.1 hi with hi | hi
        · exact hp.frees i hi
        · obtain ⟨e, he, h⟩ := hs.frees i hi
          exact ⟨e, hp.sublist.subset he, h⟩
      · intro e he
        obtain ⟨hm, h⟩ := hs.found e he
        exact ⟨hp.sublist.subset hm, h⟩
    · exact hp

/-- A pass that runs past the end has erased an entry. -/
theorem length_lt_of_pastEnd (w : List ReplyEntry) (h : (pass xid xidRep w).stop = .pastEnd) :
    (pass xid xidRep w).kept.length < w.length := by
  induction w using pass.induct xid xidRep with
  | case1 => simp [pass] at h
  | case2 e es hx => simp [pass_found xid xidRep es hx] at h
  | case3 e hx hle => simp [pass_last xid xidRep hx hle]
  | case4 e hx hle e' es' ih =>
    rw [pass_erase xid xidRep e' es' hx hle] at h ⊢
    have := ih h
    simp only [List.length_cons]
    omega
  | case5 e es hx hle ih =>
    rw [pass_keep xid xidRep es hx hle] at h ⊢
    have := ih h
    simp only [List.length_cons]
    omega

/-- **The passes are enough**: the scan ends at an entry of the xid or at the end of the list. -/
theorem scan_stop (n : ℕ) (w : List ReplyEntry) (h : w.length < n) :
    (scan xid xidRep n w).stop ≠ .pastEnd := by
  induction n generalizing w with
  | zero => omega
  | succ n ih =>
    rw [scan]
    split_ifs with hstop
    · have := length_lt_of_pastEnd xid xidRep w hstop
      exact ih _ (by omega)
    · exact hstop

/-! ### When the scan finds an entry -/

/-- The number of elements at the end of a list that satisfy `p`, up to the last one that does not. -/
def trailing {α : Type*} (p : α → Bool) : List α → ℕ
  | [] => 0
  | a :: l => if p a && l.all p then l.length + 1 else trailing p l

theorem trailing_of_all {α : Type*} {p : α → Bool} {l : List α} (h : l.all p = true) :
    trailing p l = l.length := by
  cases l with
  | nil => rfl
  | cons a l =>
    rw [List.all_cons] at h
    rw [trailing, if_pos h, List.length_cons]

theorem trailing_cons_of_not {α : Type*} {p : α → Bool} {a : α} (l : List α) (h : p a = false) :
    trailing p (a :: l) = trailing p l := by
  rw [trailing, h, Bool.false_and, if_neg (by simp)]

/-- Two elements in front of a list change the number by 2 or not at all. -/
theorem even_trailing_cons_cons {α : Type*} {p : α → Bool} {a b : α} {l : List α}
    (ha : p a = true) (h : Even (trailing p (a :: b :: l))) : Even (trailing p l) := by
  rw [trailing, ha, Bool.true_and, List.all_cons] at h
  split_ifs at h with hb
  · rw [Bool.and_eq_true] at hb
    rw [trailing_of_all hb.2]
    rw [List.length_cons] at h
    exact (Nat.even_add (m := l.length) (n := 2)).1 h |>.2 even_two
  · rwa [trailing, if_neg hb] at h

/-- **The scan finds an entry that it does not step over**: before it stands an even number of entries
that are erased one after the other. -/
theorem pass_stop_of_even {e : ReplyEntry} (pre post : List ReplyEntry) (he : e.xid = xid)
    (hpre : ∀ x ∈ pre, x.xid ≠ xid)
    (heven : Even (trailing (fun x => decide (x.xid ≤ xidRep)) pre)) :
    (pass xid xidRep (pre ++ e :: post)).stop = .found e := by
  induction pre using pass.induct xid xidRep with
  | case1 =>
    rw [List.nil_append, pass_found xid xidRep post he]
  | case2 x xs hx => exact absurd hx (hpre x (by simp))
  | case3 x hx hle =>
    -- a single erased entry would hide the next one
    simp [trailing, hle] at heven
  | case4 x hx hle y ys ih =>
    rw [List.cons_append, List.cons_append, pass_erase xid xidRep y _ hx hle]
    refine ih (fun z hz => hpre z (by simp [hz])) ?_
    exact even_trailing_cons_cons (decide_eq_true hle) heven
  | case5 x xs hx hle ih =>
    rw [List.cons_append, pass_keep xid xidRep _ hx hle]
    refine ih (fun z hz => hpre z (by simp [hz])) ?_
    rwa [trailing_cons_of_not xs (decide_eq_false hle)] at heven

/-- The same for the whole loop. -/
theorem scan_stop_of_even (n : ℕ) (w : List ReplyEntry) (hmem : xid ∈ w.map ReplyEntry.xid)
    (heven : Even (trailing (fun x => decide (x.xid ≤ xidRep))
      (w.takeWhile (fun x => decide (x.xid ≠ xid))))) :
    ∃ e, (scan xid xidRep (n + 1) w).stop = .found e := by
  obtain ⟨e, he, hx⟩ := List.mem_map.1 hmem
  obtain ⟨e₀, post, hdrop⟩ : ∃ e₀ post, w.dropWhile (fun x => decide (x.xid ≠ xid)) = e₀ :: post := by
    apply List.exists_cons_of_ne_nil
    intro hnil
    have := List.dropWhile_eq_nil_iff.1 hnil e he
    simp [hx] at this
  have he₀ : e₀.xid = xid := by
    have := List.head?_dropWhile_not (fun x : ReplyEntry => decide (x.xid ≠ xid)) w
    rw [hdrop] at this
    simpa using this
  -- the first pass does not run past the entry, so there is no second one
  have hpass : (pass xid xidRep w).stop = .found e₀ := by
    have hw := List.takeWhile_append_dropWhile (p := fun x : ReplyEntry => decide (x.xid ≠ xid))
      (l := w)
    rw [hdrop] at hw
    rw [← hw]
    refine pass_stop_of_even xid xidRep _ post he₀ ?_ heven
    intro x hx'
    simpa using List.mem_takeWhile_imp hx'
  refine ⟨e₀, ?_⟩
  rw [scan, if_neg (by simp [hpass])]
  exact hpass

end Scan

/-! ## Specification of the critical sections -/

/-- What `checkduplicate_and_update` may do to the state `s` when it returns `st`. -/
structure Classified (s : Rpcs) (c xid xidRep : ℕ) (st : RpcState) (freed : List ℕ)
    (s' : Rpcs) : Prop where
  nonce : s'.nonce = s.nonce
  frame : ∀ c', c' ≠ c → s'.window c' = s.window c' ∧ s'.maximaXidRep c' = s.maximaXidRep c'
  origin : ∀ e ∈ s'.window c, e ∈ s.window c ∨ (st = .NEW ∧ e = ⟨xid, none⟩)
  lost : ∀ e ∈ s.window c, e ∉ s'.window c → e.xid ≤ xidRep ∧ st ≠ .FORGOTTEN
  maximum : ∃ m, s'.maximaXidRep c = some m ∧ (m = xidRep ∨ s.maximaXidRep c = some m) ∧
    (∀ m₀, s.maximaXidRep c = some m₀ → m₀ ≤ m) ∧ (st ≠ .FORGOTTEN → xidRep ≤ m)
  frees : ∀ i ∈ freed, st ≠ .FORGOTTEN ∧ ∃ e ∈ s.window c, e.xid ≤ xidRep ∧ i ∈ freeBuf e
  forgotten : st = .FORGOTTEN ↔ xid < (s.maximaXidRep c).getD xidRep
  done : ∀ b, st = .DONE b → ∃ e ∈ s.window c, e.xid = xid ∧ e.buf = some b
  new : st = .NEW →
    ⟨xid, none⟩ ∈ s'.window c ∧ ∀ e, (s.scanned c xid xidRep).stop ≠ .found e

section Classified

variable {s : Rpcs} {c xid xidRep : ℕ}

theorem classified_forgotten (h : xid < (s.maximaXidRep c).getD xidRep) :
    Classified s c xid xidRep .FORGOTTEN []
      { s with maximaXidRep := s.maximaXidRep.set c ((s.maximaXidRep c).getD xidRep) } := by
  refine ⟨rfl, ?_, fun e he => .inl he, fun e he hnot => absurd he hnot, ?_, by simp, by simp [h],
    by simp, by simp⟩
  · intro c' hc'
    exact ⟨rfl, StdMap.set_of_ne _ _ hc'⟩
  · refine ⟨_, StdMap.set_self _ _ _, ?_, ?_, by simp⟩
    · cases s.maximaXidRep c <;> simp
    · intro m hm
      rw [hm]
      exact le_rfl

/-- The new maximum. -/
theorem max_getD_spec (o : Option ℕ) (r : ℕ) :
    (max (o.getD r) r = r ∨ o = some (max (o.getD r) r)) ∧
      ∀ m, o = some m → m ≤ max (o.getD r) r := by
  cases o with
  | none => simp
  | some m =>
    constructor
    · show max m r = r ∨ some m = some (max m r)
      rcases le_total m r with h | h
      · left
        omega
      · right
        rw [max_eq_left h]
    · intro m' hm'
      obtain rfl : m = m' := by simpa using hm'
      exact le_max_left m r

/-- The two ways to leave the loop: the list `w` it leaves is the pruned one, to which a new request
has been added. -/
theorem classified_scanned {st : RpcState} {w : List ReplyEntry}
    (h : ¬ xid < (s.maximaXidRep c).getD xidRep) (hst : st ≠ .FORGOTTEN)
    (hw : ∀ e ∈ w, e ∈ (s.scanned c xid xidRep).kept ∨ (st = .NEW ∧ e = ⟨xid, none⟩))
    (hsub : (s.scanned c xid xidRep).kept ⊆ w)
    (hdone : ∀ b, st = .DONE b → ∃ e ∈ s.window c, e.xid = xid ∧ e.buf = some b)
    (hnew : st = .NEW → ⟨xid, none⟩ ∈ w ∧ ∀ e, (s.scanned c xid xidRep).stop ≠ .found e) :
    Classified s c xid xidRep st (s.scanned c xid xidRep).freed
      { s with
        maximaXidRep := s.maximaXidRep.set c (max ((s.maximaXidRep c).getD xidRep) xidRep)
        replyWindow := s.replyWindow.set c w } := by
  have hp : Prunes xid xidRep (s.window c) (s.scanned c xid xidRep) := scan_prunes xid xidRep _ _
  obtain ⟨hmax, hmono⟩ := max_getD_spec (s.maximaXidRep c) xidRep
  have hwin : (s.replyWindow.set c w).get c = w := StdMap.get_set_self _ _ _
  refine ⟨rfl, ?_, ?_, ?_, ?_, fun i hi => ⟨hst, hp.frees i hi⟩, by simp [hst, h], hdone, ?_⟩
  · intro c' hc'
    exact ⟨StdMap.get_set_of_ne _ _ hc', StdMap.set_of_ne _ _ hc'⟩
  · intro e he
    rw [window, hwin] at he
    exact (hw e he).imp_left (fun hk => hp.sublist.subset hk)
  · intro e he hnot
    rw [window, hwin] at hnot
    exact ⟨hp.keeps e he (fun hk => hnot (hsub hk)), hst⟩
  · exact ⟨_, StdMap.set_self _ _ _, hmax, hmono, fun _ => le_max_right _ _⟩
  · intro hn
    rw [window, hwin]
    exact hnew hn

/-- **Specification of `checkduplicate_and_update`.** -/
theorem checkduplicate_spec (s : Rpcs) (c xid xidRep : ℕ) :
    Classified s c xid xidRep (s.checkduplicateAndUpdate c xid xidRep).1
      (s.checkduplicateAndUpdate c xid xidRep).2.1
      (s.checkduplicateAndUpdate c xid xidRep).2.2 := by
  unfold checkduplicateAndUpdate
  dsimp only
  split_ifs with hlt
  · exact classified_forgotten hlt
  · have hp : Prunes xid xidRep (s.window c) (s.scanned c xid xidRep) := scan_prunes xid xidRep _ _
    split
    · next e hstop =>
      obtain ⟨he, hxe⟩ := hp.found e hstop
      cases hb : e.buf with
      | some b =>
        refine classified_scanned hlt (by simp) (fun x hx => .inl hx) (fun x hx => hx) ?_ (by simp)
        intro b' hb'
        obtain rfl : b = b' := by simpa using hb'
        exact ⟨e, he, hxe, hb⟩
      | none =>
        exact classified_scanned hlt (by simp) (fun x hx => .inl hx) (fun x hx => hx) (by simp)
          (by simp)
    · next hstop =>
      refine classified_scanned hlt (by simp) ?_ (List.subset_append_left _ _) (by simp) ?_
      · intro e he
        rcases List.mem_append.1 he with he | he
        · exact .inl he
        · exact .inr ⟨rfl, List.mem_singleton.1 he⟩
      · intro _
        exact ⟨by simp, fun e he => hstop e he⟩

/-- A classification stores no buffer. -/
theorem Classified.stored {s' : Rpcs} {c' : ℕ} {st : RpcState} {freed : List ℕ} {e : ReplyEntry}
    {b : Buf} (h : Classified s c xid xidRep st freed s') (he : e ∈ s'.window c')
    (hb : e.buf = some b) : e ∈ s.window c' := by
  by_cases hc : c' = c
  · subst hc
    rcases h.origin e he with he | ⟨-, rfl⟩
    · exact he
    · cases hb
  · rwa [(h.frame c' hc).1] at he

end Classified

/-- `add_reply` changes the buffer of one entry. -/
theorem mem_storeReply {xid : ℕ} {b : Buf} {w : List ReplyEntry} {e : ReplyEntry}
    (h : e ∈ storeReply xid b w) : e ∈ w ∨ e = ⟨xid, some b⟩ := by
  induction w with
  | nil => simp [storeReply] at h
  | cons x xs ih =>
    rw [storeReply] at h
    split_ifs at h with hx
    · rcases List.mem_cons.1 h with rfl | h
      · right
        rw [hx]
      · exact .inl (by simp [h])
    · rcases List.mem_cons.1 h with rfl | h
      · exact .inl (by simp)
      · exact (ih h).imp_left (fun hm => by simp [hm])

/-- `add_reply` keeps the xids of the window. -/
theorem map_xid_storeReply (xid : ℕ) (b : Buf) (w : List ReplyEntry) :
    (storeReply xid b w).map ReplyEntry.xid = w.map ReplyEntry.xid := by
  induction w with
  | nil => rfl
  | cons x xs ih =>
    rw [storeReply]
    split_ifs
    · rfl
    · rw [List.map_cons, ih, List.map_cons]

/-- The windows after `add_reply`. -/
theorem window_addReply (s : Rpcs) (c c' x : ℕ) (b : Buf) :
    (s.addReply c x b).window c' = if c' = c then storeReply x b (s.window c') else s.window c' := by
  split_ifs with hc
  · subst hc
    exact StdMap.get_set_self _ _ _
  · exact StdMap.get_set_of_ne _ _ hc

/-- A buffer is stored after `add_reply` if it was before, or is the one that it has stored. -/
theorem stored_addReply {s : Rpcs} {c c' x : ℕ} {b b' : Buf} {e : ReplyEntry}
    (he : e ∈ (s.addReply c x b).window c') (hb : e.buf = some b') :
    e ∈ s.window c' ∨ (c' = c ∧ e.xid = x ∧ b' = b) := by
  rw [window_addReply] at he
  split_ifs at he with hc
  · rcases mem_storeReply he with he | rfl
    · exact .inl he
    · exact .inr ⟨hc, rfl, (Option.some.inj hb).symm⟩
  · exact .inl he

theorem map_xid_window_addReply (s : Rpcs) (c c' x : ℕ) (b : Buf) :
    ((s.addReply c x b).window c').map ReplyEntry.xid = (s.window c').map ReplyEntry.xid := by
  rw [window_addReply]
  split_ifs
  · exact map_xid_storeReply x b _
  · rfl

end Rpcs
