/-
# Group membership against the answers

What `group_util` prints rests on the status of the four group operations.  A `userdel` that the
server rejects answers `OK`, so the answers do not always tell who is in a group:

* `exec_member`: the effect of every call on the membership of one user in one group;
* `ingroup_iff_last`: as long as no `userdel` of a member is rejected, a user is in a group exactly
  when the last call about them that returned `OK` was a `useradd`.
-/
import Yfs.ExtentAccess

namespace ExtentServer

/-! ## What a call says about a membership -/

/-- What an answer says about the membership of `u` in `g`: an accepted `useradd` that it begins, an
accepted `groupdel` or `userdel` that it ends, any other answer nothing. -/
def verdict (u : UserId) (g : GroupId) (e : Event) : Option Bool :=
  if e.reply.status = .OK then
    match e.call with
    | .useradd v g' _ _ => if v = u ∧ g' = g then some true else none
    | .userdel v g' _ _ => if v = u ∧ g' = g then some false else none
    | .groupdel g' _ _ => if g' = g then some false else none
    | _ => none
  else none

/-- Among the calls `groupdel(g)`, `useradd(u, g)` and `userdel(u, g)` that returned `OK`, the last
one is a `useradd`. -/
def LastAdds (u : UserId) (g : GroupId) (h : List Event) : Prop :=
  (h.filterMap (verdict u g)).getLast? = some true

/-- The call is not a `userdel` of the member `u` of `g` that the server rejects. -/
def NoRejectedUserdel (u : UserId) (g : GroupId) (s : ExtentServer) (e : Event) : Prop :=
  ∀ admin adminkey, e.call = .userdel u g admin adminkey → s.userkeys.get admin ≠ adminkey →
    u ∉ s.groupusers.get g

theorem lastAdds_snoc {u : UserId} {g : GroupId} {h : List Event} {e : Event} :
    LastAdds u g (h ++ [e]) ↔
      verdict u g e = some true ∨ (verdict u g e = none ∧ LastAdds u g h) := by
  unfold LastAdds
  rw [List.filterMap_append]
  cases hv : verdict u g e with
  | none => simp [hv]
  | some b => simp [hv]

/-! ## What a call does to a membership -/

/-- The operations on extents leave every group as it is. -/
theorem guarded_groupusers (bits : PermBits) (s : ExtentServer) (id : ExtentId) (v : UserId) (k : Str)
    (r : Str → Reply) (new : Option Attr → Str → Option Attr × Option Str) (g : GroupId) :
    (guarded bits id v k (ifContents id r new) s).2.groupusers.get g = s.groupusers.get g := by
  obtain ⟨t, ht, ⟨-, h⟩ | ⟨-, ⟨-, h⟩ | ⟨buf, -, h⟩⟩⟩ := guarded_ifContents_spec bits id v k s r new
  all_goals
    rw [h]
    exact ht.groupusers g

theorem put_groupusers (env : Env) (s : ExtentServer) (id : ExtentId) (buf : Str) (v : UserId)
    (k : Str) (g : GroupId) : (put env s id buf v k).2.groupusers.get g = s.groupusers.get g := by
  rw [put_eq]
  obtain ⟨t, ht, ⟨-, h⟩ | ⟨-, h⟩⟩ := guarded_spec writeBits id v k s _
  all_goals
    rw [h]
    exact ht.groupusers g

theorem reg_groupusers (s : ExtentServer) (v : UserId) (k : Str) (g : GroupId) :
    (reg s v k).2.groupusers.get g = s.groupusers.get g := by
  simp only [reg, authenticate]
  cases s.userkeys v with
  | none => rfl
  | some k' => cases s.userkeys.get v == k <;> rfl

theorem getattr_groupusers (s : ExtentServer) (id : ExtentId) (g : GroupId) :
    (getattr s id).2.groupusers.get g = s.groupusers.get g := by
  simp only [getattr]
  cases s.contents id <;> rfl

theorem groupadd_groupusers (s : ExtentServer) (g' : GroupId) (admin : UserId) (key : Str)
    (g : GroupId) : (groupadd s g' admin key).2.groupusers.get g = s.groupusers.get g := by
  simp only [groupadd, adminOk_eq]
  cases s.userkeys.get admin == key with
  | false => rfl
  | true => exact StdMap.get_touch s.groupusers g' g

section Member

variable {u : UserId} {g : GroupId} {s : ExtentServer}

/-- A set that replaces the members of a group, seen from one user and one group. -/
theorem mem_get_set {v : UserId} {g' : GroupId} {m : Finset UserId}
    (h : v ≠ u → (u ∈ m ↔ u ∈ s.groupusers.get g')) :
    u ∈ (s.groupusers.set g' m).get g ↔
      if v = u ∧ g' = g then u ∈ m else u ∈ s.groupusers.get g := by
  by_cases hg : g' = g
  · subst hg
    rw [StdMap.get_set_self]
    by_cases hv : v = u
    · simp [hv]
    · simp [hv, h hv]
  · rw [StdMap.get_set_of_ne _ _ (Ne.symm hg)]
    simp [hg]

theorem useradd_member (env : Env) (v : UserId) (g' : GroupId) (admin : UserId) (key : Str) :
    u ∈ (useradd s v g' admin key).2.groupusers.get g ↔
      (verdict u g ⟨env, .useradd v g' admin key, (useradd s v g' admin key).1⟩).getD
        (decide (u ∈ s.groupusers.get g)) = true := by
  by_cases hkey : s.userkeys.get admin = key
  · have hres : useradd s v g' admin key = (⟨.OK, [], default⟩,
        { s.touchKey admin with
          groupusers := s.groupusers.set g' (insert v (s.groupusers.get g')) }) := by
      simp [useradd, hkey]
    simp only [hres, verdict, if_true]
    rw [mem_get_set (v := v) (fun hv => by simp [Ne.symm hv])]
    split_ifs with h
    · simp [h.1]
    · simp
  · have hres : useradd s v g' admin key = (⟨.NOACCESS, [], default⟩, s.touchKey admin) := by
      simp [useradd, beq_eq_false_iff_ne.mpr hkey]
    simp [hres, verdict]

theorem groupdel_member (env : Env) (g' : GroupId) (admin : UserId) (key : Str) :
    u ∈ (groupdel s g' admin key).2.groupusers.get g ↔
      (verdict u g ⟨env, .groupdel g' admin key, (groupdel s g' admin key).1⟩).getD
        (decide (u ∈ s.groupusers.get g)) = true := by
  by_cases hkey : s.userkeys.get admin = key
  · cases hg' : s.groupusers g' with
    | none =>
      have hres : groupdel s g' admin key = (⟨.NOENT, [], default⟩, s.touchKey admin) := by
        simp [groupdel, hkey, hg']
      simp [hres, verdict]
    | some users =>
      have hres : groupdel s g' admin key = (⟨.OK, [], default⟩,
          { s.touchKey admin with groupusers := s.groupusers.erase g' }) := by
        simp [groupdel, hkey, hg']
      by_cases hg : g' = g
      · subst hg
        simp only [hres, verdict, StdMap.get_erase_self, if_true, Option.getD_some]
        exact ⟨fun h => absurd h (Finset.notMem_empty u), fun h => absurd h Bool.false_ne_true⟩
      · simp [hres, verdict, StdMap.get_erase_of_ne _ (Ne.symm hg), hg]
  · have hres : groupdel s g' admin key = (⟨.NOACCESS, [], default⟩, s.touchKey admin) := by
      simp [groupdel, beq_eq_false_iff_ne.mpr hkey]
    simp [hres, verdict]

theorem userdel_member (env : Env) {v : UserId} {g' : GroupId} {admin : UserId} {key : Str}
    (hok : v = u → g' = g → s.userkeys.get admin ≠ key → u ∉ s.groupusers.get g) :
    u ∈ (userdel s v g' admin key).2.groupusers.get g ↔
      (verdict u g ⟨env, .userdel v g' admin key, (userdel s v g' admin key).1⟩).getD
        (decide (u ∈ s.groupusers.get g)) = true := by
  by_cases hkey : s.userkeys.get admin = key
  · by_cases hv : ∃ users, s.groupusers g' = some users ∧ v ∈ users
    · obtain ⟨users, hg', hv⟩ := hv
      have hres : userdel s v g' admin key = (⟨.OK, [], default⟩,
          { s.touchKey admin with groupusers := s.groupusers.set g' (users.erase v) }) := by
        simp [userdel, hkey, hg', hv]
      simp only [hres, verdict, if_true]
      rw [mem_get_set (v := v) (fun hne => by simp [StdMap.get_of_some hg', Ne.symm hne])]
      split_ifs with h
      · simp [h.1]
      · simp
    · have hres : userdel s v g' admin key = (⟨.NOENT, [], default⟩, s.touchKey admin) := by
        cases hg' : s.groupusers g' with
        | none => simp [userdel, hkey, hg']
        | some users =>
          have hv' : v ∉ users := fun h => hv ⟨users, hg', h⟩
          simp [userdel, hkey, hg', hv']
      simp [hres, verdict]
  · -- the rejected call answers `OK`: this is right only when the user is not in the group
    have hres : userdel s v g' admin key = (⟨.OK, [], default⟩, s.touchKey admin) := by
      simp [userdel, beq_eq_false_iff_ne.mpr hkey]
    simp only [hres, verdict, if_true, touchKey_groupusers]
    split_ifs with h
    · simpa using hok h.1 h.2 hkey
    · simp

/-- **The effect of a call on a membership** is what its answer says, a rejected `userdel` of a member
apart. -/
theorem step_member {s' : ExtentServer} {e : Event} (hs : Step s e s')
    (hok : NoRejectedUserdel u g s e) :
    u ∈ s'.groupusers.get g ↔
      (verdict u g e).getD (decide (u ∈ s.groupusers.get g)) = true := by
  obtain ⟨env, call, reply⟩ := e
  obtain ⟨rfl, rfl⟩ : reply = (exec env s call).1 ∧ s' = (exec env s call).2 := by
    rw [Step] at hs
    rw [hs]
    exact ⟨rfl, rfl⟩
  have hframe : (exec env s call).2.groupusers.get g = s.groupusers.get g →
      verdict u g ⟨env, call, (exec env s call).1⟩ = none →
      (u ∈ (exec env s call).2.groupusers.get g ↔
        (verdict u g ⟨env, call, (exec env s call).1⟩).getD
          (decide (u ∈ s.groupusers.get g)) = true) := by
    intro h hv
    rw [h, hv]
    simp
  cases call with
  | put id buf v k => exact hframe (put_groupusers env s id buf v k g) (by simp [verdict])
  | get id v k =>
    refine hframe ?_ (by simp [verdict])
    rw [exec, get_eq]
    exact guarded_groupusers readBits s id v k _ _ g
  | getattr id v k => exact hframe (getattr_groupusers s id g) (by simp [verdict])
  | setattr id a v k =>
    refine hframe ?_ (by simp [verdict])
    rw [exec, setattr_eq]
    exact guarded_groupusers writeBits s id v k _ _ g
  | remove id v k =>
    refine hframe ?_ (by simp [verdict])
    rw [exec, remove_eq]
    exact guarded_groupusers writeBits s id v k _ _ g
  | reg v k => exact hframe (reg_groupusers s v k g) (by simp [verdict])
  | groupadd g' admin key => exact hframe (groupadd_groupusers s g' admin key g) (by simp [verdict])
  | groupdel g' admin key => exact groupdel_member env g' admin key
  | useradd v g' admin key => exact useradd_member env v g' admin key
  | userdel v g' admin key =>
    refine userdel_member env ?_
    rintro rfl rfl
    exact hok admin key rfl

end Member

/-! ## Whole runs -/

/-- **Membership from the answers.**  In every run in which no `userdel` of a member `u` of `g` is
rejected, `u` is in `g` if and only if the last call about them that returned `OK` was a
`useradd(u, g)`. -/
theorem ingroup_iff_last {time : UInt32} {uid : UserId} {gid : GroupId} {h : List Event}
    {s : ExtentServer} (u : UserId) (g : GroupId)
    (hr : Trace (Guarded (NoRejectedUserdel u g) Step) (init time uid gid) h s) :
    (ingroup s u g).1 = true ↔ LastAdds u g h := by
  have hmem : u ∈ s.groupusers.get g ↔ LastAdds u g h := by
    refine hr.history (I := fun h s => u ∈ s.groupusers.get g ↔ LastAdds u g h) ?_ ?_
    · exact ⟨fun hu => absurd hu (Finset.notMem_empty u), fun hu => by cases hu⟩
    · rintro h s e s' ih ⟨hok, hs⟩
      rw [step_member hs hok, lastAdds_snoc, ← ih]
      cases verdict u g e with
      | none => simp
      | some b => simp
  rw [← hmem]
  simp [ingroup]

/-- A user who is let into a group, taken out of it and let in again. -/
theorem ingroup_iff_last_readded :
    ∃ h s, Trace (Guarded (NoRejectedUserdel 5 3) Step) (init 0 0 0) h s ∧ h.length = 3 ∧
      (ingroup s 5 3).1 = true := by
  have h0 : Trace (Guarded (NoRejectedUserdel 5 3) Step) (init 0 0 0) [] (init 0 0 0) := .nil
  have h1 := snoc_exec h0 default (.useradd 5 3 1 []) (fun _ _ hc => by cases hc)
  have h2 := snoc_exec h1 default (.userdel 5 3 1 [])
    (fun _ _ hc hk => by cases hc; exact absurd (by decide) hk)
  have h3 := snoc_exec h2 default (.useradd 5 3 1 []) (fun _ _ hc => by cases hc)
  exact ⟨_, _, h3, rfl, (ingroup_iff_last 5 3 h3).mpr (by unfold LastAdds; decide)⟩

/-- A `userdel` with a wrong key answers `OK` and leaves the user in the group. -/
theorem rejected_userdel_reports_ok :
    ¬ ∀ h s u g, Run h s → ((ingroup s u g).1 = true ↔ LastAdds u g h) := by
  intro hall
  have hr := trace_replay (init 0 0 0)
    [(default, .useradd 5 3 1 []), (default, .userdel 5 3 1 [9])]
  have h1 := hall _ _ 5 3 ⟨0, 0, 0, hr⟩
  revert h1
  unfold LastAdds
  decide

end ExtentServer
