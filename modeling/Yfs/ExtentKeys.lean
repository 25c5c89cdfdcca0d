/-
# The key table of the extent server

Which credentials the server accepts, as a function of the history of calls.

`authenticate` reads `userkeys[userid]`, which inserts the empty key for a user it has not seen.  Two
facts about whole runs follow:

* `accepted_registered_iff`: an accepted call was preceded by a registration of exactly its
  credentials, except that the empty key of an unregistered user is accepted too;
* `reg_claims_iff`: a userid can be claimed by its first registration as long as no other call has
  named it;
* `registered_key_permanent`: from its registration on, a key is the only one of its user, and calls
  with another one do nothing.
-/
import Yfs.ExtentAccess

namespace ExtentServer

/-! ## What a call can do to the key table -/

/-- The user whose key the call looks up with `authenticate`; `reg` is treated apart. -/
def authUser : Call → Option UserId
  | .getattr _ _ _ => none
  | .reg _ _ => none
  | c => some (creds c).1

/-- The operations on an extent look up the key of the caller and nothing else. -/
theorem put_userkeys (env : Env) (s : ExtentServer) (id : ExtentId) (buf : Str) (u : UserId)
    (k : Str) : (put env s id buf u k).2.userkeys = s.userkeys.touch u := by
  obtain ⟨b, t, hp, ht, -⟩ := hasPerm_spec writeBits s id u k
  simp only [put, hasWritePerm, hp]
  cases b <;> exact ht.userkeys

/-- An operation on an extent looks the key of its caller up and changes no other key. -/
theorem guarded_userkeys (bits : PermBits) (s : ExtentServer) (id : ExtentId) (u : UserId) (k : Str)
    (r : Str → Reply) (new : Option Attr → Str → Option Attr × Option Str) :
    (guarded bits id u k (ifContents id r new) s).2.userkeys = s.userkeys.touch u := by
  obtain ⟨t, ht, ⟨-, h⟩ | ⟨-, ⟨-, h⟩ | ⟨buf, -, h⟩⟩⟩ := guarded_ifContents_spec bits id u k s r new
  all_goals
    rw [h]
    exact ht.userkeys

/-- **The effect of a call on the key table**: eight calls look a key up, the first registration of a
user stores one, a later registration and `getattr` change nothing. -/
theorem step_userkeys {s s' : ExtentServer} {e : Event} (h : Step s e s') :
    (∃ u, authUser e.call = some u ∧ s'.userkeys = s.userkeys.touch u) ∨
      (∃ u k, e.call = .reg u k ∧ s.userkeys u = none ∧ e.reply.status = .OK ∧
        s'.userkeys = s.userkeys.set u k) ∨
      (∃ u k k', e.call = .reg u k ∧ s.userkeys u = some k' ∧
        (e.reply.status = .OK ↔ k' = k) ∧ s'.userkeys = s.userkeys) ∨
      ((∃ id u k, e.call = .getattr id u k) ∧ s'.userkeys = s.userkeys) := by
  obtain ⟨env, call, reply⟩ := e
  obtain ⟨rfl, rfl⟩ : reply = (exec env s call).1 ∧ s' = (exec env s call).2 := by
    rw [Step] at h
    rw [h]
    exact ⟨rfl, rfl⟩
  cases call with
  | put id buf u k => exact Or.inl ⟨u, rfl, put_userkeys env s id buf u k⟩
  | get id u k =>
    refine Or.inl ⟨u, rfl, ?_⟩
    rw [exec, get_eq]
    exact guarded_userkeys readBits s id u k _ _
  | getattr id u k =>
    refine Or.inr (Or.inr (Or.inr ⟨⟨id, u, k, rfl⟩, ?_⟩))
    simp only [exec, getattr]
    cases s.contents id <;> rfl
  | setattr id a u k =>
    refine Or.inl ⟨u, rfl, ?_⟩
    rw [exec, setattr_eq]
    exact guarded_userkeys writeBits s id u k _ _
  | remove id u k =>
    refine Or.inl ⟨u, rfl, ?_⟩
    rw [exec, remove_eq]
    exact guarded_userkeys writeBits s id u k _ _
  | reg u k =>
    right
    simp only [exec, reg, authenticate]
    cases hu : s.userkeys u with
    | none => exact Or.inl ⟨u, k, rfl, hu, rfl, rfl⟩
    | some k' =>
      refine Or.inr (Or.inl ⟨u, k, k', rfl, hu, ?_, ?_⟩)
      · rw [StdMap.get_of_some hu]
        by_cases hk : k' = k
        · simp [hk]
        · have hbeq : (k' == k) = false := by simpa using hk
          simp [hbeq, hk]
      · cases s.userkeys.get u == k <;> exact StdMap.touch_of_some hu
  | groupadd g u k => exact Or.inl ⟨u, rfl, (groupadd_frame s g u k).userkeys⟩
  | groupdel g u k => exact Or.inl ⟨u, rfl, (groupdel_frame s g u k).userkeys⟩
  | useradd v g u k => exact Or.inl ⟨u, rfl, (useradd_frame s v g u k).userkeys⟩
  | userdel v g u k => exact Or.inl ⟨u, rfl, (userdel_frame s v g u k).userkeys⟩

/-! ## The key table after a run -/

/-- In the history `h` the registration of `userkey` for `userid` has succeeded. -/
def Registered (h : List Event) (userid : UserId) (userkey : Str) : Prop :=
  ∃ e ∈ h, e.call = .reg userid userkey ∧ e.reply.status = .OK

theorem registered_snoc {h : List Event} {e : Event} {u : UserId} {k : Str} :
    Registered (h ++ [e]) u k ↔ Registered h u k ∨ (e.call = .reg u k ∧ e.reply.status = .OK) := by
  constructor
  · rintro ⟨e', he', hc⟩
    rcases List.mem_append.mp he' with hm | hm
    · exact Or.inl ⟨e', hm, hc⟩
    · obtain rfl := List.mem_singleton.mp hm
      exact Or.inr hc
  · rintro (⟨e', he', hc⟩ | hc)
    · exact ⟨e', List.mem_append_left _ he', hc⟩
    · exact ⟨e, by simp, hc⟩

/-- The key table against the history: a registered key is stored, and a stored key is registered or
the empty key of a lookup. -/
structure KeyInv (h : List Event) (s : ExtentServer) : Prop where
  stored : ∀ u k, Registered h u k → s.userkeys u = some k
  origin : ∀ u k, s.userkeys u = some k → k = [] ∨ Registered h u k

theorem KeyInv.origin_snoc {h : List Event} {s : ExtentServer} (hi : KeyInv h s) (e : Event)
    {u : UserId} {k : Str} (hu : s.userkeys u = some k) : k = [] ∨ Registered (h ++ [e]) u k :=
  (hi.origin u k hu).imp_right (fun hr => registered_snoc.mpr (Or.inl hr))

/-- A call that changes no key and registers nothing but what is stored. -/
theorem KeyInv.unchanged {h : List Event} {s s' : ExtentServer} {e : Event} (hi : KeyInv h s)
    (hk : s'.userkeys = s.userkeys)
    (hreg : ∀ u k, e.call = .reg u k → e.reply.status = .OK → s.userkeys u = some k) :
    KeyInv (h ++ [e]) s' := by
  refine ⟨fun u k hr => ?_, fun u k hu => ?_⟩
  · rw [hk]
    rcases registered_snoc.mp hr with hr | ⟨hc, hok⟩
    · exact hi.stored u k hr
    · exact hreg u k hc hok
  · rw [hk] at hu
    exact hi.origin_snoc e hu

theorem keyInv_step {h : List Event} {s s' : ExtentServer} {e : Event} (hi : KeyInv h s)
    (hs : Step s e s') : KeyInv (h ++ [e]) s' := by
  rcases step_userkeys hs with ⟨v, hv, hk⟩ | ⟨v, key, hc, hnone, hok, hk⟩ |
    ⟨v, key, key', hc, hsome, hok, hk⟩ | ⟨⟨id, v, key, hc⟩, hk⟩
  · -- a lookup by `authenticate`
    have hreg : ∀ u k, ¬ (e.call = .reg u k ∧ e.reply.status = .OK) := by
      rintro u k ⟨hc, -⟩
      rw [hc] at hv
      cases hv
    refine ⟨fun u k hr => ?_, fun u k hu => ?_⟩
    · rcases registered_snoc.mp hr with hr | hr
      · have hu := hi.stored u k hr
        by_cases huv : u = v
        · subst huv
          rw [hk, StdMap.touch_of_some hu, hu]
        · rw [hk, StdMap.touch_of_ne _ huv, hu]
      · exact absurd hr (hreg u k)
    · rw [hk] at hu
      by_cases huv : u = v
      · subst huv
        cases hold : s.userkeys u with
        | none =>
          rw [StdMap.touch_self, StdMap.get_of_none hold] at hu
          exact Or.inl (Option.some.inj hu).symm
        | some k' =>
          rw [StdMap.touch_of_some hold] at hu
          exact hi.origin_snoc e hu
      · rw [StdMap.touch_of_ne _ huv] at hu
        exact hi.origin_snoc e hu
  · -- the first registration of `v`
    refine ⟨fun u k hr => ?_, fun u k hu => ?_⟩
    · rcases registered_snoc.mp hr with hr | ⟨hr, -⟩
      · have hu := hi.stored u k hr
        have huv : u ≠ v := by rintro rfl; rw [hnone] at hu; cases hu
        rw [hk, StdMap.set_of_ne _ _ huv, hu]
      · rw [hc] at hr
        cases hr
        rw [hk, StdMap.set_self]
    · rw [hk] at hu
      by_cases huv : u = v
      · subst huv
        rw [StdMap.set_self] at hu
        cases hu
        exact Or.inr (registered_snoc.mpr (Or.inr ⟨hc, hok⟩))
      · rw [StdMap.set_of_ne _ _ huv] at hu
        exact hi.origin_snoc e hu
  · -- a later registration of `v`
    refine hi.unchanged hk ?_
    intro u k hr hst
    rw [hc] at hr
    cases hr
    rw [hsome, hok.mp hst]
  · refine hi.unchanged hk ?_
    intro u k hr
    rw [hc] at hr
    cases hr

theorem Run.keyInv {h : List Event} {s : ExtentServer} (hr : Run h s) : KeyInv h s := by
  obtain ⟨time, uid, gid, ht⟩ := hr
  refine ht.history (I := KeyInv) ⟨?_, ?_⟩ (fun _ _ _ _ => keyInv_step)
  · rintro u k ⟨e, he, -⟩
    cases he
  · intro u k hu
    cases hu

/-! ## Which credentials are accepted -/

/-- The operations that answer `NOACCESS` to a caller they reject. -/
def rejects : Call → Bool
  | .put _ _ _ _ | .get _ _ _ | .setattr _ _ _ _ | .remove _ _ _ => true
  | .groupadd _ _ _ | .groupdel _ _ _ | .useradd _ _ _ _ => true
  | .getattr _ _ _ | .reg _ _ | .userdel _ _ _ _ => false

/-- The access to an extent an operation asks for. -/
def needs : Call → Option (PermBits × ExtentId)
  | .put id _ _ _ | .setattr id _ _ _ | .remove id _ _ => some (writeBits, id)
  | .get id _ _ => some (readBits, id)
  | _ => none

/-- `get`, `setattr` and `remove` are accepted when the key is right and the extent permits them. -/
theorem guarded_accepted_iff (bits : PermBits) (s : ExtentServer) (id : ExtentId) (u : UserId)
    (k : Str) (r : Str → Reply) (new : Option Attr → Str → Option Attr × Option Str)
    (hr : ∀ buf, (r buf).status ≠ .NOACCESS) :
    (guarded bits id u k (ifContents id r new) s).1.status ≠ .NOACCESS ↔
      s.userkeys.get u = k ∧ s.Permits bits id u := by
  obtain ⟨t, -, ⟨hno, h⟩ | ⟨hyes, ⟨-, h⟩ | ⟨buf, -, h⟩⟩⟩ :=
    guarded_ifContents_spec bits id u k s r new
  · rw [h]
    exact ⟨fun hne => absurd rfl hne, fun hyes => absurd hyes hno⟩
  · rw [h]
    exact ⟨fun _ => hyes, fun _ => by simp⟩
  · rw [h]
    exact ⟨fun _ => hyes, fun _ => hr buf⟩

/-- A call is accepted exactly when its key is the stored one and the extent permits the access. -/
theorem accepted_iff (env : Env) (s : ExtentServer) {c : Call} (hc : rejects c = true) :
    (exec env s c).1.status ≠ .NOACCESS ↔ s.userkeys.get (creds c).1 = (creds c).2 ∧
      ∀ bits id, needs c = some (bits, id) → s.Permits bits id (creds c).1 := by
  cases c with
  | put id buf u k =>
    obtain ⟨b, t, hp, -, hb⟩ := hasPerm_spec writeBits s id u k
    simp only [exec, put, hasWritePerm, hp]
    cases b <;> simpa [creds, needs] using hb
  | get id u k =>
    rw [exec, get_eq]
    simpa [creds, needs] using guarded_accepted_iff readBits s id u k _ _ (by simp)
  | setattr id a u k =>
    rw [exec, setattr_eq]
    simpa [creds, needs] using guarded_accepted_iff writeBits s id u k _ _ (by simp)
  | remove id u k =>
    rw [exec, remove_eq]
    simpa [creds, needs] using guarded_accepted_iff writeBits s id u k _ _ (by simp)
  | groupadd g u k =>
    simp only [exec, groupadd, adminOk_eq]
    cases hk : s.userkeys.get u == k <;> simpa [creds, needs] using hk
  | groupdel g u k =>
    simp only [exec, groupdel, adminOk_eq]
    cases hk : s.userkeys.get u == k with
    | false => simpa [creds, needs] using hk
    | true =>
      simp only [touchKey_groupusers]
      cases s.groupusers g <;> simpa [creds, needs] using hk
  | useradd v g u k =>
    simp only [exec, useradd, adminOk_eq]
    cases hk : s.userkeys.get u == k <;> simpa [creds, needs] using hk
  | getattr | reg | userdel => cases hc

/-- **Accepted credentials, exactly.**  That a call with a status other than `NOACCESS` was preceded
by a successful registration of exactly its credentials holds if and only if the key is not empty,
or the user has been registered, or the extent refuses the access anyway. -/
theorem accepted_registered_iff {h : List Event} {s s' : ExtentServer} {e : Event} (hr : Run h s)
    (hs : Step s e s') (hc : rejects e.call = true) :
    (e.reply.status ≠ .NOACCESS → Registered h (creds e.call).1 (creds e.call).2) ↔
      (creds e.call).2 ≠ [] ∨ (∃ k, Registered h (creds e.call).1 k) ∨
        ∃ bits id, needs e.call = some (bits, id) ∧ ¬ s.Permits bits id (creds e.call).1 := by
  have hst : e.reply.status ≠ .NOACCESS ↔ s.userkeys.get (creds e.call).1 = (creds e.call).2 ∧
      ∀ bits id, needs e.call = some (bits, id) → s.Permits bits id (creds e.call).1 := by
    rw [← accepted_iff e.env s hc, show exec e.env s e.call = (e.reply, s') from hs]
  have hi := hr.keyInv
  rw [hst]
  generalize creds e.call = c
  obtain ⟨u, k⟩ := c
  constructor
  · intro hprop
    by_contra hcond
    push Not at hcond
    obtain ⟨rfl, hnoreg, hperm⟩ := hcond
    -- the key of an unregistered user reads as empty
    have hget : s.userkeys.get u = [] := by
      cases hu : s.userkeys u with
      | none => exact StdMap.get_of_none hu
      | some k =>
        rcases hi.origin u k hu with rfl | hk
        · exact StdMap.get_of_some hu
        · exact absurd hk (hnoreg k)
    exact hnoreg [] (hprop ⟨hget, hperm⟩)
  · rintro hcond ⟨hkey, hperm⟩
    rcases hcond with hne | ⟨k', hk'⟩ | ⟨bits, id, hneed, hdeny⟩
    · cases hu : s.userkeys u with
      | none => exact absurd (hkey.symm.trans (StdMap.get_of_none hu)) hne
      | some k' =>
        obtain rfl : k' = k := (StdMap.get_of_some hu).symm.trans hkey
        exact (hi.origin u k' hu).resolve_left hne
    · obtain rfl : k' = k := (StdMap.get_of_some (hi.stored u k' hk')).symm.trans hkey
      exact hk'
    · exact absurd (hperm bits id hneed) hdeny

/-- A `get` with a non-empty key that was never registered is turned away. -/
theorem accepted_registered_iff_wrong_key :
    Run [] (init 0 0 0) ∧
      ((⟨default, .get 1 9 [7], ⟨.NOACCESS, [], default⟩⟩ : Event).reply.status ≠ .NOACCESS →
        Registered [] 9 [7]) :=
  ⟨⟨0, 0, 0, .nil⟩, (accepted_registered_iff (e := ⟨default, .get 1 9 [7],
    ⟨.NOACCESS, [], default⟩⟩) ⟨0, 0, 0, .nil⟩ (s := init 0 0 0) (Prod.ext (by decide) rfl)
    rfl).mpr (Or.inl (by decide))⟩

/-- An unregistered user is let in with the empty key. -/
theorem empty_key_accepted :
    ¬ ∀ h s s' e, Run h s → Step s e s' → rejects e.call = true → e.reply.status ≠ .NOACCESS →
      Registered h (creds e.call).1 (creds e.call).2 := by
  intro hall
  have hstep : Step (init 0 0 0) ⟨default, .put 2 [1] 9 [], ⟨.OK, [], default⟩⟩
      (exec default (init 0 0 0) (.put 2 [1] 9 [])).2 := Prod.ext (by decide) rfl
  obtain ⟨e, he, -⟩ := hall [] _ _ _ ⟨0, 0, 0, .nil⟩ hstep rfl (by decide)
  cases he

/-! ## Claiming a userid -/

/-- As long as no call has looked up the key of `u` and no registration of it has succeeded, `u` has
no entry; the first lookup gives it one for good. -/
theorem Run.userkeys_none_iff {h : List Event} {s : ExtentServer} (hr : Run h s) (u : UserId)
    (hu : ∀ k, ¬ Registered h u k) :
    s.userkeys u = none ↔ ∀ e ∈ h, authUser e.call ≠ some u := by
  obtain ⟨time, uid, gid, ht⟩ := hr
  refine ht.history (I := fun h s => (∀ k, ¬ Registered h u k) →
    (s.userkeys u = none ↔ ∀ e ∈ h, authUser e.call ≠ some u)) (fun _ => ?_) ?_ hu
  · simp [init]
  intro h s e s' ih hs hno
  have hold := ih (fun k hk => hno k (registered_snoc.mpr (Or.inl hk)))
  have hsplit : (∀ e' ∈ h ++ [e], authUser e'.call ≠ some u) ↔
      (∀ e' ∈ h, authUser e'.call ≠ some u) ∧ authUser e.call ≠ some u := by
    simp [or_imp, forall_and]
  rw [hsplit, ← hold]
  rcases step_userkeys hs with ⟨v, hv, hk⟩ | ⟨v, key, hc, hnone, hok, hk⟩ |
    ⟨v, key, key', hc, -, -, hk⟩ | ⟨⟨id, v, key, hc⟩, hk⟩
  · rw [hk, StdMap.touch_eq_none_iff, hv]
    simp [eq_comm]
  · -- a successful registration is of somebody else
    have huv : u ≠ v := by
      rintro rfl
      exact hno key (registered_snoc.mpr (Or.inr ⟨hc, hok⟩))
    rw [hk, StdMap.set_of_ne _ _ huv, hc]
    simp [authUser]
  · rw [hk, hc]
    simp [authUser]
  · rw [hk, hc]
    simp [authUser]

/-- **Claiming a userid, exactly.**  After a run in which `u` has not been registered, `reg` accepts
every key for `u` if and only if no call but `reg` and `getattr` has named `u` as its user or admin. -/
theorem reg_claims_iff {h : List Event} {s : ExtentServer} (hr : Run h s) {u : UserId}
    (hu : ∀ k, ¬ Registered h u k) :
    (∀ k, (reg s u k).1.status = .OK) ↔ ∀ e ∈ h, authUser e.call ≠ some u := by
  rw [← hr.userkeys_none_iff u hu]
  constructor
  · intro hall
    cases hk : s.userkeys u with
    | none => rfl
    | some k =>
      -- the entry is the empty key of a lookup, so another key is refused
      obtain rfl : k = [] := (hr.keyInv.origin u k hk).resolve_right (hu k)
      have h1 := hall [0]
      simp [reg, authenticate, hk, StdMap.get_of_some hk] at h1
  · intro hnone k
    simp [reg, hnone]

/-- On a fresh server every userid can be claimed. -/
theorem reg_claims_fresh :
    Run [] (init 0 0 0) ∧ ∀ k, (reg (init 0 0 0) 9 k).1.status = .OK :=
  ⟨⟨0, 0, 0, .nil⟩, (reg_claims_iff (h := []) ⟨0, 0, 0, .nil⟩
    (by rintro k ⟨e, he, -⟩; cases he)).mpr (by simp)⟩

/-- A rejected `get` in the name of user `9` locks this user out. -/
theorem reg_locked_out :
    ¬ ∀ h s u, Run h s → (∀ k, ¬ Registered h u k) → ∀ k, (reg s u k).1.status = .OK := by
  intro hall
  have hr : Run (replay (init 0 0 0) [(default, .get 1 9 [7])]).1
      (replay (init 0 0 0) [(default, .get 1 9 [7])]).2 := ⟨0, 0, 0, trace_replay _ _⟩
  have h1 := hall _ _ 9 hr (by
    rintro k ⟨e, he, hc, -⟩
    obtain rfl := List.mem_singleton.mp he
    cases hc) [5]
  revert h1
  decide

/-! ## A registered key is permanent -/

/-- With a wrong key an operation on an extent ends before it has looked at the extent. -/
theorem guarded_wrong_key (bits : PermBits) (s : ExtentServer) (id : ExtentId) {u : UserId} {k : Str}
    (body : ExtentServer → Reply × ExtentServer) (hk : s.userkeys.get u ≠ k) :
    guarded bits id u k body s = (⟨.NOACCESS, [], default⟩, s.touchKey u) := by
  have hbeq : (s.userkeys.get u == k) = false := by simpa using hk
  simp only [guarded, hasPerm, authenticate, hbeq]

/-- What an operation that checks its caller does with a wrong key: it looks the stored key up, and
answers `NOACCESS`. -/
theorem exec_wrong_key (env : Env) {s : ExtentServer} {c : Call} (hc : rejects c = true)
    (hk : s.userkeys.get (creds c).1 ≠ (creds c).2) :
    exec env s c = (⟨.NOACCESS, [], default⟩, s.touchKey (creds c).1) := by
  have hadmin : s.adminOk (creds c).1 (creds c).2 = (false, s.touchKey (creds c).1) := by
    have hbeq : (s.userkeys.get (creds c).1 == (creds c).2) = false := by simpa using hk
    rw [adminOk_eq, hbeq]
  cases c with
  | put id buf u k => exact guarded_wrong_key writeBits s id _ hk
  | get id u k =>
    rw [exec, get_eq]
    exact guarded_wrong_key readBits s id _ hk
  | setattr id a u k =>
    rw [exec, setattr_eq]
    exact guarded_wrong_key writeBits s id _ hk
  | remove id u k =>
    rw [exec, remove_eq]
    exact guarded_wrong_key writeBits s id _ hk
  | groupadd g u k =>
    simp only [creds] at hadmin
    simp only [exec, groupadd, hadmin, creds]
  | groupdel g u k =>
    simp only [creds] at hadmin
    simp only [exec, groupdel, hadmin, creds]
  | useradd v g u k =>
    simp only [creds] at hadmin
    simp only [exec, useradd, hadmin, creds]
  | getattr | reg | userdel => cases hc

/-- A later registration is accepted exactly with the stored key. -/
theorem reg_of_some {s : ExtentServer} {u : UserId} {k : Str} (hu : s.userkeys u = some k)
    (k' : Str) : (reg s u k').1.status = .OK ↔ k' = k := by
  simp only [reg, hu, authenticate, StdMap.get_of_some hu]
  by_cases hk : k' = k
  · subst hk
    simp
  · have hbeq : (k == k') = false := by simpa using Ne.symm hk
    simp [hbeq, hk]

/-- **A registered key is permanent.**  After every run in which `reg(u, k)` has returned `OK`, `reg`
accepts exactly `k` for `u`, and every call with a check made in the name of `u` with another key
answers `NOACCESS` and leaves the server as it is. -/
theorem registered_key_permanent {h : List Event} {s : ExtentServer} (hr : Run h s) {u : UserId}
    {k : Str} (hreg : Registered h u k) :
    (∀ k', (reg s u k').1.status = .OK ↔ k' = k) ∧
      ∀ env c, rejects c = true → (creds c).1 = u → (creds c).2 ≠ k →
        (exec env s c).1.status = .NOACCESS ∧ (exec env s c).2 = s := by
  have hu : s.userkeys u = some k := hr.keyInv.stored u k hreg
  refine ⟨reg_of_some hu, ?_⟩
  rintro env c hc rfl hk
  rw [exec_wrong_key env hc (by rw [StdMap.get_of_some hu]; exact hk.symm)]
  refine ⟨rfl, ?_⟩
  show { s with userkeys := s.userkeys.touch (creds c).1 } = s
  rw [StdMap.touch_of_some hu]

/-- A user's key after a second registration with another one has been tried. -/
theorem registered_key_permanent_retry :
    let s := (replay (init 0 0 0) [(default, .reg 5 [107]), (default, .reg 5 [108])]).2
    (∀ k', (reg s 5 k').1.status = .OK ↔ k' = [107]) ∧
      (exec default s (.get 1 5 [108])).1.status = .NOACCESS := by
  have hr := registered_key_permanent
    (h := (replay (init 0 0 0) [(default, .reg 5 [107]), (default, .reg 5 [108])]).1)
    ⟨0, 0, 0, trace_replay _ _⟩ (u := 5) (k := [107])
    ⟨⟨default, .reg 5 [107], ⟨.OK, [], default⟩⟩, by simp [replay, exec, reg, init], rfl, rfl⟩
  exact ⟨hr.1, (hr.2 default (.get 1 5 [108]) rfl rfl (by decide)).1⟩

end ExtentServer
