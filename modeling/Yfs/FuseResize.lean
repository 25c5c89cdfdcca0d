/-
# Setting the size of a file under concurrency

`fuseserver_setattr` turns a new size into an amount relative to the size its `getattr` has reported,
and hands this amount to `write` or `truncate`.  These are two calls of `yfs_client`, each under its
own acquisition of the lock, so other clients may change the file in between.

* `resize` is what the second call does to the content; `resize_eq_iff` says exactly for which contents
  it is what was asked for (`Meets`).
* `Sys` lets any number of clients do this on one file, interleaved at the calls of `yfs_client` with
  writes, truncations and changes of attributes by anybody.
* `resize_exact_iff`: in every run, the second call gives the file the size that was asked for, and does
  not compute a position beyond its end, if and only if the content it finds meets `Meets`.
-/
import Yfs.Fuse

open YfsClient

namespace Fuse

/-! ## The edit of the second call -/

/-- The content with the size `n`: a prefix, or the whole followed by zeros. -/
def resized (n : ℕ) (content : Str) : Str :=
  content.take n ++ List.replicate (n - content.length) 0

/-- The edit of the file by the call `sizeCall inum new old`. -/
def resize (new old : Int64) (content : Str) : Option Str :=
  if old < new then
    (StdString.fill (new - old).toUInt64.toNat 0).bind (fun nullStr =>
      writeContent content old nullStr)
  else truncateContent content (old - new).toUInt64

/-- The value of `(int) size`. -/
def cint (size : ℕ) : ℤ := (UInt64.ofNat size).toUInt32.toInt32.toInt

/-- The contents for which the edit is right.  To shrink a file that is known with the size `old`, its
length must still be `old`.  To let it grow, it must be no longer than `old`, or `write` must see that
it is longer and overwrite zeros by zeros. -/
def Meets (new old : Int64) (content : Str) : Prop :=
  (new ≤ old → (content.length : ℤ) = old.toInt) ∧
    (old < new → new.toInt ≤ StdString.maxSize ∧
      ((content.length : ℤ) ≤ old.toInt ∨
        (old.toInt < cint content.length ∧ (content.length : ℤ) ≤ new.toInt ∧
          ∀ x ∈ content.drop old.toInt.toNat, x = 0)))

theorem toNat_toUInt64 {x : Int64} (hx : 0 ≤ x.toInt) : (x.toUInt64.toNat : ℤ) = x.toInt := by
  have hcond := x.toBitVec.toInt_eq_toNat_cond
  rw [← Int64.toInt] at hcond
  have heq : x.toUInt64.toNat = x.toBitVec.toNat := rfl
  have hlt := x.toBitVec.isLt
  omega

/-- The difference of two sizes, as the source computes it in `off_t` and converts it to `size_t`. -/
theorem toNat_sub {x y : Int64} (hy : 0 ≤ y.toInt) (hxy : y.toInt ≤ x.toInt) :
    ((x - y).toUInt64.toNat : ℤ) = x.toInt - y.toInt := by
  have hx := toNat_toUInt64 (x := x) (by omega)
  have hy' := toNat_toUInt64 hy
  have hle : y.toUInt64.toNat ≤ x.toUInt64.toNat := by omega
  rw [Int64.toUInt64_sub, UInt64.toNat_sub_of_le _ _ (UInt64.le_iff_toNat_le.mpr hle)]
  omega

/-- The conversion drops all but the last 32 bits, of which the first is the sign. -/
theorem cint_cond (size : ℕ) : cint size =
    if 2 * (size % 2 ^ 32) < 2 ^ 32 then (size % 2 ^ 32 : ℤ) else (size % 2 ^ 32 : ℤ) - 2 ^ 32 := by
  have hbv : cint size = (UInt64.ofNat size).toUInt32.toBitVec.toInt := rfl
  have hmod : (UInt64.ofNat size).toUInt32.toBitVec.toNat = size % 2 ^ 64 % 2 ^ 32 := by simp
  rw [hbv, BitVec.toInt_eq_toNat_cond, hmod]
  omega

theorem cint_le (size : ℕ) : cint size ≤ size := by
  rw [cint_cond]
  omega

theorem maxSize_lt : StdString.maxSize < 2 ^ 62 := by decide

section Edit

variable {content : Str} (hlen : content.length ≤ StdString.maxSize)

include hlen

theorem toNat_length : (UInt64.ofNat content.length).toNat = content.length := by
  have := maxSize_lt
  exact UInt64.toNat_ofNat_of_lt' (by rw [UInt64.size]; omega)

/-- `content.size() - d` as a `size_t` is a position of the content exactly when `d` is not larger than
the size. -/
theorem truncateContent_eq (d : UInt64) :
    truncateContent content d =
      if d.toNat ≤ content.length then some (content.take (content.length - d.toNat)) else none := by
  have hmax := maxSize_lt
  have hd := d.toNat_lt
  unfold truncateContent StdString.erase
  split_ifs with hpos hle hle
  · rw [UInt64.toNat_sub_of_le _ _ (by rw [UInt64.le_iff_toNat_le, toNat_length hlen]; exact hle),
      toNat_length hlen, List.drop_of_length_le (by omega), List.append_nil]
  · -- a position that has wrapped around is beyond the end
    rw [UInt64.toNat_sub, toNat_length hlen] at hpos
    omega
  · rw [UInt64.toNat_sub_of_le _ _ (by rw [UInt64.le_iff_toNat_le, toNat_length hlen]; exact hle),
      toNat_length hlen] at hpos
    omega
  · rfl

/-- Shrinking is right exactly for a content of the size that is assumed. -/
theorem shrink_eq_iff {new old : Int64} (hnew : 0 ≤ new.toInt) (hle : new.toInt ≤ old.toInt) :
    truncateContent content (old - new).toUInt64 = some (resized new.toInt.toNat content) ↔
      (content.length : ℤ) = old.toInt := by
  have hd := toNat_sub hnew hle
  rw [truncateContent_eq hlen]
  constructor
  · intro h
    split_ifs at h with hpos
    have hlen' := congrArg List.length (Option.some.inj h)
    simp only [resized, List.length_append, List.length_take, List.length_replicate] at hlen'
    omega
  · intro h
    rw [if_pos (by omega), resized, show new.toInt.toNat - content.length = 0 by omega,
      List.replicate_zero, List.append_nil]
    congr 2
    omega

/-- Where `write` replaces: zeros over the bytes from `old` on are right exactly when these bytes are
zero already and none is left over. -/
theorem overwrite_eq_iff {old new : ℕ} (hold : old < content.length) (hnew : old < new) :
    StdString.replace content old (new - old) (List.replicate (new - old) 0) =
        some (resized new content) ↔
      new ≤ StdString.maxSize ∧ content.length ≤ new ∧ ∀ x ∈ content.drop old, x = 0 := by
  unfold StdString.replace resized
  rw [List.length_replicate]
  constructor
  · intro h
    split_ifs at h with hcond
    have heq := Option.some.inj h
    have hlen' := congrArg List.length heq
    simp only [List.length_append, List.length_take, List.length_drop, List.length_replicate] at hlen'
    have hle : content.length ≤ new := by omega
    refine ⟨by omega, hle, ?_⟩
    -- both sides start with the bytes before `old`
    rw [List.take_of_length_le hle, List.drop_of_length_le (by omega), List.append_nil] at heq
    have hsplit : content ++ List.replicate (new - content.length) 0 =
        content.take old ++ (content.drop old ++ List.replicate (new - content.length) 0) := by
      rw [← List.append_assoc, List.take_append_drop]
    have hzero := List.append_cancel_left (heq.trans hsplit)
    intro x hx
    have hmem : x ∈ List.replicate (new - old) (0 : UInt8) := by
      rw [hzero]
      exact List.mem_append_left _ hx
    exact List.eq_of_mem_replicate hmem
  · rintro ⟨hmax, hle, hzero⟩
    have hdrop : content.drop old = List.replicate (content.length - old) 0 :=
      List.eq_replicate_iff.2 ⟨List.length_drop, hzero⟩
    rw [if_pos (by omega), List.take_of_length_le hle, List.drop_of_length_le (by omega),
      List.append_nil]
    have hsplit : content = content.take old ++ List.replicate (content.length - old) 0 := by
      rw [← hdrop, List.take_append_drop]
    congr 1
    nth_rewrite 2 [hsplit]
    rw [List.append_assoc, List.replicate_append_replicate,
      show content.length - old + (new - content.length) = new - old by omega]

/-- Where `write` appends: the zeros up to `old` and from `old` on are right as long as the result is
not too long; a content longer than `old` makes the number of the first zeros wrap around. -/
theorem append_eq_iff {old new : ℕ} (hnew : old < new) (hold : old < 2 ^ 32) :
    ((StdString.fill (UInt64.ofNat old - UInt64.ofNat content.length).toNat 0).bind (fun null =>
        (StdString.append content null).bind (fun content =>
          StdString.append content (List.replicate (new - old) 0)))) = some (resized new content) ↔
      new ≤ StdString.maxSize ∧ content.length ≤ old := by
  have hmax := maxSize_lt
  have hold' : (UInt64.ofNat old).toNat = old :=
    UInt64.toNat_ofNat_of_lt' (by rw [UInt64.size]; omega)
  by_cases hle : content.length ≤ old
  · have hsub : (UInt64.ofNat old - UInt64.ofNat content.length).toNat = old - content.length := by
      rw [UInt64.toNat_sub_of_le _ _ (by rw [UInt64.le_iff_toNat_le, toNat_length hlen, hold']; exact hle),
        toNat_length hlen, hold']
    have hfill : old - content.length ≤ StdString.maxSize := by
      have : 2 ^ 32 ≤ StdString.maxSize := by decide
      omega
    have happ : content.length + (old - content.length) ≤ StdString.maxSize := by
      have : 2 ^ 32 ≤ StdString.maxSize := by decide
      omega
    simp only [hsub, StdString.fill, if_pos hfill, Option.bind_some, StdString.append,
      List.length_replicate, if_pos happ, List.length_append]
    constructor
    · intro h
      split_ifs at h with hcond
      exact ⟨by omega, hle⟩
    · rintro ⟨hnewmax, -⟩
      rw [if_pos (by omega), resized, List.take_of_length_le (by omega), List.append_assoc,
        List.replicate_append_replicate,
        show old - content.length + (new - old) = new - content.length by omega]
  · have hwrap : ¬ (UInt64.ofNat old - UInt64.ofNat content.length).toNat ≤ StdString.maxSize := by
      rw [UInt64.toNat_sub, toNat_length hlen, hold']
      omega
    simp [StdString.fill, if_neg hwrap, hle]

/-- Letting the file grow. -/
theorem grow_eq_iff {new old : Int64} (hold : 0 ≤ old.toInt) (hold' : old.toInt < 2 ^ 32)
    (hlt : old.toInt < new.toInt) :
    ((StdString.fill (new - old).toUInt64.toNat 0).bind (fun nullStr =>
        writeContent content old nullStr)) = some (resized new.toInt.toNat content) ↔
      new.toInt ≤ StdString.maxSize ∧ ((content.length : ℤ) ≤ old.toInt ∨
        (old.toInt < cint content.length ∧ (content.length : ℤ) ≤ new.toInt ∧
          ∀ x ∈ content.drop old.toInt.toNat, x = 0)) := by
  have hd : (new - old).toUInt64.toNat = new.toInt.toNat - old.toInt.toNat := by
    have := toNat_sub hold hlt.le
    omega
  have hpos : old.toUInt64.toNat = old.toInt.toNat := by
    have := toNat_toUInt64 hold
    omega
  have hcint := cint_le content.length
  by_cases hfill : (new - old).toUInt64.toNat ≤ StdString.maxSize
  · rw [StdString.fill, if_pos hfill, Option.bind_some, writeContent, hd, List.length_replicate, hpos,
      show (UInt64.ofNat content.length).toUInt32.toInt32.toInt = cint content.length from rfl]
    by_cases hwrite : old.toInt < cint content.length
    · rw [if_pos hwrite, overwrite_eq_iff hlen (by omega) (by omega)]
      constructor
      · rintro ⟨h1, h2, h3⟩
        exact ⟨by omega, .inr ⟨hwrite, by omega, h3⟩⟩
      · rintro ⟨h1, h2 | ⟨-, h2, h3⟩⟩
        · omega
        · exact ⟨by omega, by omega, h3⟩
    · rw [if_neg hwrite, show old.toUInt64 = UInt64.ofNat old.toInt.toNat by
        rw [← hpos, UInt64.ofNat_toNat], append_eq_iff hlen (by omega) (by omega)]
      constructor
      · rintro ⟨h1, h2⟩
        exact ⟨by omega, .inl (by omega)⟩
      · rintro ⟨h1, h2 | ⟨h2, -⟩⟩
        · exact ⟨by omega, by omega⟩
        · exact absurd h2 hwrite
  · rw [StdString.fill, if_neg hfill]
    simp only [Option.bind_none, reduceCtorEq, false_iff, not_and]
    intro h
    omega

/-- **The edit, exactly.** -/
theorem resize_eq_iff {new old : Int64} (hnew : 0 ≤ new.toInt) (hold : 0 ≤ old.toInt)
    (hold' : old.toInt < 2 ^ 32) :
    resize new old content = some (resized new.toInt.toNat content) ↔ Meets new old content := by
  have hle_iff := Int64.le_iff_toInt_le (x := new) (y := old)
  unfold resize Meets
  by_cases hlt : old < new
  · have hlt' := Int64.lt_iff_toInt_lt.1 hlt
    rw [if_pos hlt, grow_eq_iff hlen hold hold' hlt']
    constructor
    · intro h
      exact ⟨fun hle => absurd (hle_iff.1 hle) (by omega), fun _ => h⟩
    · intro h
      exact h.2 hlt
  · have hle : new.toInt ≤ old.toInt := by
      rw [Int64.lt_iff_toInt_lt] at hlt
      omega
    rw [if_neg hlt, shrink_eq_iff hlen hnew hle]
    constructor
    · intro h
      exact ⟨fun _ => h, fun hlt' => absurd hlt' hlt⟩
    · intro h
      exact h.1 (hle_iff.2 hle)

end Edit

/-! ## The calls on a file -/

section Calls

variable {cl : YfsClient} {inum : Inum} {s s' : ExtentServer} {content : Str}
  {tr : List (ExtentCall × Resp)} {o : Outcome FsReply}

/-- `write` and `truncate`: the edit throws and nothing has happened, or its result is stored. -/
theorem modify_ok {edit : Str → Option Str} (hcontent : s.contents inum = some content)
    (h : Prog.Alone serve ∅ s (cl.modify inum edit) tr o s') (hok : Succeeds tr) :
    (edit content = none ∧ o = .throw ∧ s'.contents = s.contents) ∨
      ∃ c, edit content = some c ∧ o = .ret ⟨.OK, .untouched⟩ ∧
        s'.contents = s.contents.set inum c := by
  rw [YfsClient.modify, Prog.alone_withLock] at h
  obtain ⟨r₁, s₁, tr₁, hs₁, rfl, h, hok⟩ := alone_get_ok (cl.modifyIn inum edit) hcontent h.2 hok
  unfold modifyIn at h
  cases he : edit content with
  | none =>
    rw [he] at h
    obtain ⟨rfl, rfl, rfl⟩ := Prog.alone_ret.1 h
    exact .inl ⟨rfl, rfl, hs₁⟩
  | some c =>
    rw [he] at h
    obtain ⟨r₂, s₂, tr₂, hs₂, rfl, h, -⟩ := alone_write_ok h hok
    obtain ⟨rfl, rfl, rfl⟩ := Prog.alone_ret.1 h
    refine .inr ⟨c, rfl, rfl, ?_⟩
    rw [hs₂, hs₁]
    rfl

/-- `chmod`, `chuid` and `chgid` change no contents. -/
theorem change_ok {edit : Attr → Attr} (h : Prog.Alone serve ∅ s (cl.change inum edit) tr o s')
    (hok : Succeeds tr) : s'.contents = s.contents := by
  rw [change, Prog.alone_withLock] at h
  obtain ⟨r₁, s₁, tr₁, hr₁, -, hs₁, rfl, h, hok⟩ := alone_ec_ok h.2 hok
  rw [if_neg (fun hne => by simpa using hr₁.eq hne)] at h
  obtain ⟨r₂, s₂, tr₂, hs₂, rfl, h, -⟩ := alone_write_ok h hok
  obtain ⟨-, -, rfl⟩ := Prog.alone_ret.1 h
  rw [hs₂]
  exact hs₁

/-- The second call of a `setattr` with a size. -/
theorem sizeCall_ok {new old : Int64} {c : FsCall} (hc : sizeCall inum new old = some c)
    (hcontent : s.contents inum = some content) (h : Performs cl c s o s') :
    (resize new old content = none ∧ o = .throw ∧ s'.contents = s.contents) ∨
      ∃ b, resize new old content = some b ∧ o = .ret ⟨.OK, .untouched⟩ ∧
        s'.contents = s.contents.set inum b := by
  obtain ⟨tr, h, hok⟩ := h
  unfold sizeCall at hc
  unfold resize
  by_cases hlt : old < new
  · rw [if_pos hlt] at hc ⊢
    obtain ⟨nullStr, hfill, rfl⟩ := Option.map_eq_some_iff.1 hc
    rw [hfill, Option.bind_some]
    rw [FsCall.prog, YfsClient.write] at h
    have hres := modify_ok hcontent h hok
    exact hres
  · rw [if_neg hlt] at hc ⊢
    obtain rfl := Option.some.inj hc
    rw [FsCall.prog, YfsClient.truncate] at h
    exact modify_ok hcontent h hok

/-- No edit makes a string that is too long. -/
theorem writeContent_length {off : Int64} {buf b : Str} (h : writeContent content off buf = some b) :
    b.length ≤ StdString.maxSize := by
  unfold writeContent at h
  dsimp only at h
  split_ifs at h with hoff
  · unfold StdString.replace at h
    split_ifs at h with hcond
    obtain rfl := Option.some.inj h
    simp only [List.length_append, List.length_take, List.length_drop]
    omega
  · obtain ⟨null, -, h⟩ := Option.bind_eq_some_iff.1 h
    obtain ⟨x, -, h⟩ := Option.bind_eq_some_iff.1 h
    unfold StdString.append at h
    split_ifs at h with hcond
    obtain rfl := Option.some.inj h
    rw [List.length_append]
    exact hcond

theorem truncateContent_length {d : UInt64} {b : Str} (h : truncateContent content d = some b) :
    b.length ≤ content.length := by
  unfold truncateContent StdString.erase at h
  split_ifs at h
  obtain rfl := Option.some.inj h
  simp only [List.length_append, List.length_take, List.length_drop]
  omega

theorem resize_length {new old : Int64} {b : Str} (hlen : content.length ≤ StdString.maxSize)
    (h : resize new old content = some b) : b.length ≤ StdString.maxSize := by
  unfold resize at h
  split_ifs at h
  · obtain ⟨nullStr, -, h⟩ := Option.bind_eq_some_iff.1 h
    exact writeContent_length h
  · exact (truncateContent_length h).trans hlen

end Calls

/-! ## Any number of clients -/

/-- A `setattr` with a size between its two calls: the size that is asked for, and the size that
`getattr` has reported. -/
structure Pending where
  new : Int64
  old : Int64
  deriving DecidableEq, Repr

/-- The extent server and what each of the clients `τ` has under way. -/
structure ResizeSys (τ : Type) where
  server : ExtentServer
  pending : τ → Option Pending

/-- The calls of `yfs_client`: the first and the second call of a `setattr` with a size, and any other
call on the file, with how it ended. -/
inductive ResizeAct (τ : Type)
  | getattr (c : τ) (new : Int64)
  | resize (c : τ) (o : Outcome FsReply)
  | other (call : FsCall)

/-- The calls that may come in between: writes, truncations, and the other calls of a `setattr`. -/
def OnFile (inum : Inum) : FsCall → Prop
  | .write num _ _ | .truncate num _ | .chmod num _ | .chuid num _ | .chgid num _ => num = inum
  | call => call = attrCall inum

variable {τ : Type} [DecidableEq τ]

/-- One call, under the lock of the file.  The amount of the second call of a `setattr` is computed
before its lock is taken, and when the string of zeros is too long, this is where the client ends. -/
inductive ResizeStep (inum : Inum) : ResizeSys τ → ResizeAct τ → ResizeSys τ → Prop
  | getattr {s : ResizeSys τ} {c : τ} {new : Int64} {cl : YfsClient} {r : FsReply}
      {server : ExtentServer} : s.pending c = none → 0 ≤ new.toInt →
      Performs cl (attrCall inum) s.server (.ret r) server → r.status = .OK →
      ResizeStep inum s (.getattr c new)
        ⟨server, Function.update s.pending c (some ⟨new, (statOf inum r.out).size⟩)⟩
  | resize {s : ResizeSys τ} {c : τ} {p : Pending} {cl : YfsClient} {call : FsCall}
      {o : Outcome FsReply} {server : ExtentServer} : s.pending c = some p →
      sizeCall inum p.new p.old = some call → Performs cl call s.server o server →
      ResizeStep inum s (.resize c o) ⟨server, Function.update s.pending c none⟩
  | overlong {s : ResizeSys τ} {c : τ} {p : Pending} : s.pending c = some p →
      sizeCall inum p.new p.old = none →
      ResizeStep inum s (.resize c .throw) ⟨s.server, Function.update s.pending c none⟩
  | other {s : ResizeSys τ} {cl : YfsClient} {call : FsCall} {o : Outcome FsReply}
      {server : ExtentServer} : OnFile inum call → Performs cl call s.server o server →
      ResizeStep inum s (.other call) ⟨server, s.pending⟩

/-- The file exists with a content that fits into a string, and the sizes of the pending changes are
sizes. -/
structure ResizeInv (inum : Inum) (s : ResizeSys τ) : Prop where
  file : ∃ content, s.server.contents inum = some content ∧ content.length ≤ StdString.maxSize
  sizes : ∀ c p, s.pending c = some p →
    0 ≤ p.new.toInt ∧ 0 ≤ p.old.toInt ∧ p.old.toInt < 2 ^ 32

/-- An edit that throws or stores something that fits into a string leaves such a file. -/
theorem file_of_edit {inum : Inum} {s s' : ExtentServer} {content : Str} (e : Option Str)
    {o : Outcome FsReply} (hcontent : s.contents inum = some content)
    (hlen : content.length ≤ StdString.maxSize)
    (hfit : ∀ b, e = some b → b.length ≤ StdString.maxSize)
    (h : (e = none ∧ o = .throw ∧ s'.contents = s.contents) ∨
      ∃ b, e = some b ∧ o = .ret ⟨.OK, .untouched⟩ ∧ s'.contents = s.contents.set inum b) :
    ∃ b, s'.contents inum = some b ∧ b.length ≤ StdString.maxSize := by
  rcases h with ⟨-, -, hs⟩ | ⟨b, he, -, hs⟩
  · exact ⟨content, by rw [hs, hcontent], hlen⟩
  · exact ⟨b, by rw [hs, StdMap.set_self], hfit b he⟩

/-- A call between the two of a `setattr` leaves a file of a possible length. -/
theorem other_ok {cl : YfsClient} {inum : Inum} {s s' : ExtentServer} {call : FsCall}
    {o : Outcome FsReply} {content : Str} (hcall : OnFile inum call)
    (h : Performs cl call s o s') (hcontent : s.contents inum = some content)
    (hlen : content.length ≤ StdString.maxSize) :
    ∃ b, s'.contents inum = some b ∧ b.length ≤ StdString.maxSize := by
  have hsame : s'.contents = s.contents → ∃ b, s'.contents inum = some b ∧
      b.length ≤ StdString.maxSize := fun hs => ⟨content, by rw [hs, hcontent], hlen⟩
  have hattr : call = attrCall inum → ∃ b, s'.contents inum = some b ∧
      b.length ≤ StdString.maxSize := by
    rintro rfl
    exact hsame (attrCall_ok h).1
  obtain ⟨tr, halone, hok⟩ := h
  cases call with
  | write num off buf =>
    obtain rfl : num = inum := hcall
    rw [FsCall.prog, YfsClient.write] at halone
    have hres := modify_ok hcontent halone hok
    exact file_of_edit (writeContent content off buf) hcontent hlen (fun b => writeContent_length) hres
  | truncate num size =>
    obtain rfl : num = inum := hcall
    rw [FsCall.prog, YfsClient.truncate] at halone
    have hres := modify_ok hcontent halone hok
    exact file_of_edit (truncateContent content size) hcontent hlen
      (fun b hb => (truncateContent_length hb).trans hlen) hres
  | chmod num mode =>
    obtain rfl : num = inum := hcall
    rw [FsCall.prog, chmod] at halone
    exact hsame (change_ok halone hok)
  | chuid num uid =>
    obtain rfl : num = inum := hcall
    rw [FsCall.prog, chuid] at halone
    exact hsame (change_ok halone hok)
  | chgid num gid =>
    obtain rfl : num = inum := hcall
    rw [FsCall.prog, chgid] at halone
    exact hsame (change_ok halone hok)
  | _ => exact hattr hcall

/-- Taking a pending change away keeps the sizes of the others. -/
theorem sizes_update_none {pending : τ → Option Pending} (c : τ)
    (h : ∀ c p, pending c = some p → 0 ≤ p.new.toInt ∧ 0 ≤ p.old.toInt ∧ p.old.toInt < 2 ^ 32)
    (c' : τ) (p : Pending) (hp : Function.update pending c none c' = some p) :
    0 ≤ p.new.toInt ∧ 0 ≤ p.old.toInt ∧ p.old.toInt < 2 ^ 32 := by
  by_cases hc : c' = c
  · subst hc
    rw [Function.update_self] at hp
    cases hp
  · rw [Function.update_of_ne hc] at hp
    exact h c' p hp

theorem ResizeInv.step {inum : Inum} {s s' : ResizeSys τ} {a : ResizeAct τ}
    (hi : ResizeInv inum s) (h : ResizeStep inum s a s') : ResizeInv inum s' := by
  obtain ⟨content, hcontent, hlen⟩ := hi.file
  cases h with
  | @getattr c new cl r server hp hnew hperf hst =>
    obtain ⟨hsame, hsize⟩ := attrCall_ok hperf
    refine ⟨⟨content, by rw [hsame, hcontent], hlen⟩, fun c' p hp' => ?_⟩
    by_cases hc : c' = c
    · subst hc
      simp only [Function.update_self, Option.some.injEq] at hp'
      subst hp'
      exact ⟨hnew, hsize r rfl⟩
    · simp only [Function.update_of_ne hc] at hp'
      exact hi.sizes c' p hp'
  | resize hp hcall hperf =>
    exact ⟨file_of_edit _ hcontent hlen (fun b => resize_length hlen)
      (sizeCall_ok hcall hcontent hperf), sizes_update_none _ hi.sizes⟩
  | overlong hp hcall => exact ⟨hi.file, sizes_update_none _ hi.sizes⟩
  | other hcall hperf => exact ⟨other_ok hcall hperf hcontent hlen, hi.sizes⟩

/-- When the string of zeros is too long, the edit fails on every content. -/
theorem resize_of_sizeCall_none {inum : Inum} {new old : Int64} (h : sizeCall inum new old = none)
    (content : Str) : resize new old content = none := by
  unfold sizeCall at h
  unfold resize
  split_ifs at h ⊢ with hlt
  rw [Option.map_eq_none_iff.1 h, Option.bind_none]

/-- **Setting a size under concurrency, exactly.**  In every run of any number of clients on a file,
the second call of a `setattr` with a size returns and leaves the file with the size that was asked
for, the bytes it had before and zeros after them, if and only if the content the call finds meets
`Meets`. -/
theorem resize_exact_iff {inum : Inum} {s₀ : ExtentServer} {b₀ : Str}
    (hfile : s₀.contents inum = some b₀) (hlen : b₀.length ≤ StdString.maxSize)
    {t : List (ResizeAct τ)} {s s' : ResizeSys τ}
    (hrun : Trace (ResizeStep inum) ⟨s₀, fun _ => none⟩ t s) {c : τ} {p : Pending}
    {o : Outcome FsReply} (hp : s.pending c = some p) (hstep : ResizeStep inum s (.resize c o) s') :
    ∃ content, s.server.contents inum = some content ∧
      ((o = .ret ⟨.OK, .untouched⟩ ∧
          s'.server.contents inum = some (resized p.new.toInt.toNat content)) ↔
        Meets p.new p.old content) := by
  have hinv : ResizeInv inum s := by
    refine Trace.invariant (I := ResizeInv inum) ?_ (fun _ _ _ hi hs => hi.step hs) hrun
    exact ⟨⟨b₀, hfile, hlen⟩, fun c p hp => by cases hp⟩
  obtain ⟨content, hcontent, hlen⟩ := hinv.file
  obtain ⟨hnew, hold, hold'⟩ := hinv.sizes c p hp
  refine ⟨content, hcontent, ?_⟩
  rw [← resize_eq_iff hlen hnew hold hold']
  cases hstep with
  | resize hp' hcall hperf =>
    obtain rfl := Option.some.inj (hp.symm.trans hp')
    rcases sizeCall_ok hcall hcontent hperf with ⟨hnone, rfl, -⟩ | ⟨b, hsome, rfl, hs⟩
    · simp [hnone]
    · simp [hsome, hs]
  | overlong hp' hcall =>
    obtain rfl := Option.some.inj (hp.symm.trans hp')
    simp [resize_of_sizeCall_none hcall]

/-- A server with one file, which holds three bytes and which everybody may use. -/
def threeBytes : ExtentServer :=
  (ExtentServer.replay (ExtentServer.init 0 0 0) [(default, .put 0x80000005 [1, 2, 3] 3 [])]).2

/-- A client of this server. -/
def someClient : YfsClient := ⟨3, [], 3, 3, default, 0⟩

/-- The state after a call of this client. -/
def afterCall (s : ExtentServer) (c : FsCall) : ExtentServer :=
  ((perform (List.replicate 3 default) someClient c s).map Prod.snd).getD s

theorem performs_afterCall {s : ExtentServer} {c : FsCall} {o : Outcome FsReply}
    (h : (perform (List.replicate 3 default) someClient c s).map Prod.fst = some o) :
    Performs someClient c s o (afterCall s c) := by
  obtain ⟨⟨o', s'⟩, hperf, rfl⟩ := Option.map_eq_some_iff.1 h
  have hs : afterCall s c = s' := by rw [afterCall, hperf]; rfl
  rw [hs]
  exact performs_of_perform hperf

/-- Without anybody in between, a file of three bytes gets the size five. -/
theorem resize_exact_alone :
    ∃ (t : List (ResizeAct ℕ)) (s s' : ResizeSys ℕ),
      Trace (ResizeStep 0x80000005) ⟨threeBytes, fun _ => none⟩ t s ∧
      ResizeStep 0x80000005 s (.resize 0 (.ret ⟨.OK, .untouched⟩)) s' ∧
      s'.server.contents 0x80000005 = some [1, 2, 3, 0, 0] := by
  have hget : ResizeStep 0x80000005 (⟨threeBytes, fun _ => none⟩ : ResizeSys ℕ) (.getattr 0 5) _ :=
    .getattr rfl (by decide) (performs_afterCall (o := .ret ⟨.OK, .fin ⟨3, 0, 0, 0, 0o777, 0, 0⟩⟩)
      (by decide)) rfl
  let s₁ : ResizeSys ℕ := ⟨afterCall threeBytes (attrCall 0x80000005),
    Function.update (fun _ => none) 0 (some ⟨5, 3⟩)⟩
  have hpending : s₁.pending 0 = some ⟨5, 3⟩ := rfl
  have hcall : sizeCall 0x80000005 5 3 = some (.write 0x80000005 3 [0, 0]) := by decide
  have hres := ResizeStep.resize hpending hcall
    (performs_afterCall (o := .ret ⟨.OK, .untouched⟩) (by decide))
  have hfile : threeBytes.contents 0x80000005 = some [1, 2, 3] := by decide
  obtain ⟨content, hcontent, hiff⟩ :=
    resize_exact_iff hfile (by decide) (Trace.single hget) hpending hres
  obtain rfl : [1, 2, 3] = content := by
    have h : (afterCall threeBytes (attrCall 0x80000005)).contents 0x80000005 = some [1, 2, 3] := by
      decide
    exact Option.some.inj (h.symm.trans hcontent)
  have hmeets : Meets 5 3 [1, 2, 3] := ⟨by decide, fun _ => ⟨by decide, .inl (by decide)⟩⟩
  exact ⟨_, _, _, Trace.single hget, hres, (hiff.mpr hmeets).2⟩

/-- Another client empties the file between the two calls of a `setattr` to size two: the second call
computes a position beyond the end. -/
theorem resize_race :
    ¬ ∀ (inum : Inum) (s₀ : ExtentServer) (b₀ : Str) (t : List (ResizeAct ℕ)) (s s' : ResizeSys ℕ)
      (c : ℕ) (p : Pending) (o : Outcome FsReply), s₀.contents inum = some b₀ →
      b₀.length ≤ StdString.maxSize → Trace (ResizeStep inum) ⟨s₀, fun _ => none⟩ t s →
      s.pending c = some p → ResizeStep inum s (.resize c o) s' →
      ∃ content, s.server.contents inum = some content ∧ o = .ret ⟨.OK, .untouched⟩ ∧
        s'.server.contents inum = some (resized p.new.toInt.toNat content) := by
  intro hall
  have hget : ResizeStep 0x80000005 (⟨threeBytes, fun _ => none⟩ : ResizeSys ℕ) (.getattr 0 2) _ :=
    .getattr rfl (by decide) (performs_afterCall (o := .ret ⟨.OK, .fin ⟨3, 0, 0, 0, 0o777, 0, 0⟩⟩)
      (by decide)) rfl
  let s₁ : ResizeSys ℕ := ⟨afterCall threeBytes (attrCall 0x80000005),
    Function.update (fun _ => none) 0 (some ⟨2, 3⟩)⟩
  have hother : ResizeStep 0x80000005 s₁ (.other (.truncate 0x80000005 3)) _ :=
    .other rfl (performs_afterCall (o := .ret ⟨.OK, .untouched⟩) (by decide))
  let s₂ : ResizeSys ℕ := ⟨afterCall s₁.server (.truncate 0x80000005 3), s₁.pending⟩
  have hpending : s₂.pending 0 = some ⟨2, 3⟩ := rfl
  have hcall : sizeCall 0x80000005 2 3 = some (.truncate 0x80000005 1) := by decide
  have hres := ResizeStep.resize hpending hcall
    (performs_afterCall (o := .throw) (by decide))
  obtain ⟨content, -, ho, -⟩ := hall 0x80000005 threeBytes [1, 2, 3] _ _ _ 0 ⟨2, 3⟩ .throw
    (by decide) (by decide) ((Trace.single hget).snoc hother) rfl hres
  cases ho

end Fuse
