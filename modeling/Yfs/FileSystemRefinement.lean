/-
# Every operation of the client is one step of the file system

`does_of_alone`: an operation of `yfs_client`, run alone against an extent server that stores a file
system, does to the file system what a rule of `FileSystem.Does` says, and returns what the rule says;
afterwards the server stores the new file system.

With the linearisation of the concurrent runs (`exists_linearisation`) this makes the whole system, with
its locks, its strings and its calls to two servers, a file system that many clients use at once
(`atomic_file_system`).
-/
import Yfs.ClusterHistory
import Yfs.FileContents
import Yfs.FileSystemCalls
import Yfs.FuseResize

open YfsClient ArrayFile

namespace FileSystem

variable {fs : FileSystem} {s s' : ExtentServer} {cl : YfsClient} {i p f : Inum} {name : Str}
  {tr : List (ExtentCall × Resp)} {o : Outcome FsReply}

/-! ## The bodies of directories and files -/

/-- Under a directory number there is a directory. -/
theorem exists_dir {b : Body} (hb : b.Fits i) (hdir : isdir i) : ∃ d, b = .dir d := by
  cases b with
  | dir d => exact ⟨d, rfl⟩
  | file bytes => simp [Body.Fits, isdir] at hb hdir; simp [hdir] at hb

/-- Under a file number there is a file that is not too large. -/
theorem exists_file {b : Body} (hb : b.Fits i) (hfile : isfile i) :
    ∃ bytes, b = .file bytes ∧ bytes.length < 2 ^ 31 := by
  cases b with
  | dir d => simp [Body.Fits, isdir, hfile] at hb
  | file bytes => exact ⟨bytes, rfl, hb.2⟩

theorem text_new (i : Inum) : (Body.new i).text = [] := by
  unfold Body.new
  split_ifs <;> rfl

theorem fits_new (i : Inum) : (Body.new i).Fits i := by
  unfold Body.new
  split_ifs with h
  · exact h
  · exact ⟨by simpa [isdir] using h, by simp⟩

/-- What a client searches the string for is what the entries mention. -/
theorem mentions_iff (d : Directory) (hname : Cluster.ProperName name) :
    d.Mentions name ↔ name <:+: d.text := by
  obtain ⟨hslash, c, hc, -⟩ := hname
  rw [Directory.text, infix_render_iff (List.ne_nil_of_mem hc) hslash]
  rfl

/-- A proper name is found as a token exactly when it is listed. -/
theorem after_cases (d : Directory) (hname : Cluster.ProperName name) :
    (name ∉ d.entries.map Dirent.name ∧ after name (StdString.split slash d.text) = none) ∨
      ∃ e ∈ d.entries, e.name = name := by
  cases hafter : after name (StdString.split slash d.text) with
  | none =>
    refine .inl ⟨fun hm => ?_, rfl⟩
    obtain ⟨e, he, rfl⟩ := List.mem_map.1 hm
    obtain ⟨rest, hrest⟩ := d.after_text he
    rw [hafter] at hrest
    cases hrest
  | some ts =>
    obtain ⟨e, he, hen, -⟩ := d.exists_of_after_text hname.2 hafter
    exact .inr ⟨e, he, hen⟩

/-- Reading a node changes nobody's permission to write. -/
theorem Opens.mayWrite_iff {b : Body} {n : Node} (h : fs.Opens cl i b n) (j : Inum) :
    (fs.set i n).MayWrite cl j ↔ fs.MayWrite cl j := by
  obtain ⟨m, time, hm, rfl⟩ := h.node
  exact mayWrite_set hm ⟨rfl, rfl, rfl⟩

/-! ## The operations -/

theorem does_lookup (hr : Represents fs s) (hdir : isdir p) (hname : Cluster.ProperName name)
    (h : Prog.Alone serve ∅ s (cl.lookup p name) tr o s') :
    ∃ fs', Does cl fs (.lookup p name) o fs' ∧ Represents fs' s' := by
  obtain ⟨-, h⟩ := Prog.alone_withLock.1 h
  obtain ⟨t, tr', ⟨hno, ht, h⟩ | ⟨hyes, hnone, ht, h⟩ | ⟨b, n, ho, hb, ht, h⟩⟩ :=
    hr.get (cl.lookupIn name) h
  · obtain ⟨-, rfl, rfl⟩ := Prog.alone_ret.1 h
    exact ⟨fs, .denied rfl hno, ht⟩
  · obtain ⟨-, rfl, rfl⟩ := Prog.alone_ret.1 h
    exact ⟨fs, .missing rfl hyes hnone, ht⟩
  · obtain ⟨d, rfl⟩ := exists_dir hb hdir
    rcases after_cases d hname with ⟨hnot, hafter⟩ | ⟨e, he, rfl⟩
    · rw [lookupIn, Body.text, hafter] at h
      obtain ⟨-, rfl, rfl⟩ := Prog.alone_ret.1 h
      exact ⟨_, .lookup_absent ho hnot, ht⟩
    · rw [Body.text, d.lookupIn_text cl he] at h
      obtain ⟨-, rfl, rfl⟩ := Prog.alone_ret.1 h
      exact ⟨_, .lookup ho he, ht⟩

theorem does_readdir (hr : Represents fs s) (hdir : isdir p)
    (h : Prog.Alone serve ∅ s (cl.readdir p) tr o s') :
    ∃ fs', Does cl fs (.readdir p) o fs' ∧ Represents fs' s' := by
  obtain ⟨-, h⟩ := Prog.alone_withLock.1 h
  obtain ⟨t, tr', ⟨hno, ht, h⟩ | ⟨hyes, hnone, ht, h⟩ | ⟨b, n, ho, hb, ht, h⟩⟩ :=
    hr.get cl.readdirIn h
  · obtain ⟨-, rfl, rfl⟩ := Prog.alone_ret.1 h
    exact ⟨fs, .denied rfl hno, ht⟩
  · obtain ⟨-, rfl, rfl⟩ := Prog.alone_ret.1 h
    exact ⟨fs, .missing rfl hyes hnone, ht⟩
  · obtain ⟨d, rfl⟩ := exists_dir hb hdir
    rw [Body.text, d.readdirIn_text] at h
    obtain ⟨-, rfl, rfl⟩ := Prog.alone_ret.1 h
    exact ⟨_, .readdir ho, ht⟩

/-- `create` once the directory has been written: the file is refused, or it is empty now and belongs
to the caller. -/
theorem create_child {held : Finset ExtentId} {mode : UInt32} (hr : Represents fs s)
    (h : Prog.Alone serve held s (cl.ec (.put []) f (fun r =>
      if r.Is .NOACCESS then done .NOACCESS
      else cl.ec .getattr f (fun r =>
        let a := { r.attrOr cl.stack with mode := mode, uid := cl.uid, gid := cl.gid }
        cl.ec (.setattr a) f (fun r =>
          if r.Is .NOACCESS then done .NOACCESS
          else done .OK)))) tr o s') :
    (¬ fs.MayWrite cl f ∧ o = .ret ⟨.NOACCESS, .untouched⟩ ∧ Represents fs s') ∨
      (fs.MayWrite cl f ∧ o = .ret ⟨.OK, .untouched⟩ ∧
        ∃ m : Node, (m.mode = mode ∧ m.uid = cl.uid ∧ m.gid = cl.gid) ∧ m.body = Body.new f ∧
          Represents (fs.set f m) s') := by
  rw [← text_new f] at h
  obtain ⟨t, tr₁, ⟨hno, ht, h⟩ | ⟨hyes, n, hn, hnew, hold, ht, h⟩⟩ := hr.put (fits_new f) h
  · obtain ⟨-, rfl, rfl⟩ := Prog.alone_ret.1 h
    exact .inl ⟨hno, rfl, ht⟩
  · obtain ⟨tr₂, ⟨hnone, -⟩ | ⟨n', hn', h⟩⟩ := ht.getattr h
    · rw [nodes_set_self] at hnone
      cases hnone
    · obtain rfl : n = n' := by simpa using hn'
      -- the node that has just been written lets the client write
      have hmay : (fs.set f n).MayWrite cl f := by
        refine ⟨hyes.1, ?_⟩
        intro m hm
        obtain rfl : n = m := by simpa using hm
        cases hf : fs.nodes f with
        | none =>
          left
          rw [hnew hf]
          decide
        | some m =>
          obtain ⟨time, rfl⟩ := hold m hf
          exact hyes.2 m hf
      obtain ⟨u, tr₃, ⟨hno, -⟩ | ⟨-, hu, h⟩⟩ := ht.setattr (nodes_set_self _) h
      · exact absurd hmay hno
      · obtain ⟨-, rfl, rfl⟩ := Prog.alone_ret.1 h
        rw [set_set] at hu
        exact .inr ⟨hyes, rfl, { n with mode := mode, uid := cl.uid, gid := cl.gid }, ⟨rfl, rfl, rfl⟩,
          hn, hu⟩

theorem does_create {mode : UInt32} (hr : Represents fs s) (hdir : isdir p)
    (hname : Cluster.ProperName name) (h : Prog.Alone serve ∅ s (cl.create p f name mode) tr o s') :
    ∃ fs', Does cl fs (.create p f name mode) o fs' ∧ Represents fs' s' := by
  obtain ⟨-, h⟩ := Prog.alone_withLock.1 h
  obtain ⟨hlock, h⟩ := Prog.alone_withLock.1 h
  have hne : f ≠ p := by simpa using hlock
  obtain ⟨t, tr', ⟨hno, ht, h⟩ | ⟨hyes, hnone, ht, h⟩ | ⟨b, n, ho, hb, ht, h⟩⟩ :=
    hr.get (cl.createIn p f name mode) h
  · obtain ⟨-, rfl, rfl⟩ := Prog.alone_ret.1 h
    exact ⟨fs, .denied rfl hno, ht⟩
  · obtain ⟨-, rfl, rfl⟩ := Prog.alone_ret.1 h
    exact ⟨fs, .missing rfl hyes hnone, ht⟩
  · obtain ⟨d, rfl⟩ := exists_dir hb hdir
    rw [Body.text] at h
    unfold createIn at h
    split_ifs at h with hfind
    · obtain ⟨-, rfl, rfl⟩ := Prog.alone_ret.1 h
      rw [ne_eq, StdString.find_eq_none_iff, not_not, ← mentions_iff d hname] at hfind
      exact ⟨_, .create_exists ho hfind, ht⟩
    · rw [not_not, StdString.find_eq_none_iff] at hfind
      have hnew : ¬ d.Mentions name := by rwa [mentions_iff d hname]
      rw [StdString.append] at h
      split_ifs at h with hlen
      · obtain ⟨hslash, c, hc, -⟩ := hname
        have hnil : name ≠ [] := List.ne_nil_of_mem hc
        -- the string that is written is that of the directory with the new entry
        let d' := d.add ⟨name, f⟩ hnil hslash hfind
        have htext : d'.text = d.text ++ entry name f := d.add_text hnil hslash hfind
        rw [← htext, show d'.text = (Body.dir d').text from rfl] at h
        obtain ⟨u, tr₂, ⟨hno, hu, h⟩ | ⟨hmay, m, hm, -, hold, hu, h⟩⟩ := ht.put (b := .dir d') hdir h
        · obtain ⟨-, rfl, rfl⟩ := Prog.alone_ret.1 h
          exact ⟨_, .create_denied ho hnew (fun hw => hno ((ho.mayWrite_iff p).2 hw)), hu⟩
        · obtain ⟨time, rfl⟩ := hold n (nodes_set_self _)
          rw [set_set] at hu
          have ha : fs.Adds cl p f name d d' := by
            refine ⟨hnew, ?_, (ho.mayWrite_iff p).1 hmay, rfl⟩
            rw [htext, List.length_append]
            exact hlen
          have hchild : (fs.set p (n.stored (.dir d') time)).MayWrite cl f ↔ fs.MayWrite cl f :=
            mayWrite_of_ne _ hne
          rcases create_child hu h with ⟨hno, rfl, hs'⟩ | ⟨hyes, rfl, m, howner, hbody, hs'⟩
          · exact ⟨_, .create_half ho ha (fun hw => hno (hchild.2 hw)), hs'⟩
          · exact ⟨_, .create ho ha (hchild.1 hyes) howner hbody, hs'⟩
      · obtain ⟨-, rfl, rfl⟩ := Prog.alone_ret.1 h
        exact ⟨_, .create_full ho hnew (by omega), ht⟩

theorem does_unlink (hr : Represents fs s) (hdir : isdir p) (hname : Cluster.ProperName name)
    (h : Prog.Alone serve ∅ s (cl.unlink p name) tr o s') :
    ∃ fs', Does cl fs (.unlink p name) o fs' ∧ Represents fs' s' := by
  obtain ⟨-, h⟩ := Prog.alone_withLock.1 h
  obtain ⟨t, tr', ⟨hno, ht, h⟩ | ⟨hyes, hnone, ht, h⟩ | ⟨b, n, ho, hb, ht, h⟩⟩ :=
    hr.get (cl.unlinkIn p name) h
  · obtain ⟨-, rfl, rfl⟩ := Prog.alone_ret.1 h
    exact ⟨fs, .denied rfl hno, ht⟩
  · obtain ⟨-, rfl, rfl⟩ := Prog.alone_ret.1 h
    exact ⟨fs, .missing rfl hyes hnone, ht⟩
  · obtain ⟨d, rfl⟩ := exists_dir hb hdir
    rcases after_cases d hname with ⟨hnot, hafter⟩ | ⟨e, he, rfl⟩
    · rw [unlinkIn, Body.text, hafter] at h
      obtain ⟨-, rfl, rfl⟩ := Prog.alone_ret.1 h
      exact ⟨_, .unlink_absent ho hnot, ht⟩
    · rw [Body.text, d.unlinkIn_text cl he,
        show (d.remove e.name).text = (Body.dir (d.remove e.name)).text from rfl] at h
      obtain ⟨u, tr₂, ⟨hno, hu, h⟩ | ⟨hmay, m, hm, -, hold, hu, h⟩⟩ :=
        ht.put (b := .dir (d.remove e.name)) hdir h
      · obtain ⟨-, rfl, rfl⟩ := Prog.alone_ret.1 h
        exact ⟨_, .unlink_denied ho he (fun hw => hno ((ho.mayWrite_iff p).2 hw)), hu⟩
      · obtain ⟨time, rfl⟩ := hold n (nodes_set_self _)
        rw [set_set] at hu
        have hp := (ho.mayWrite_iff p).1 hmay
        obtain ⟨hlock, h⟩ := Prog.alone_withLock.1 h
        have hne : e.inum ≠ p := by simpa using hlock
        have hchild : (fs.set p (n.stored (.dir (d.remove e.name)) time)).MayWrite cl e.inum ↔
            fs.MayWrite cl e.inum := mayWrite_of_ne _ hne
        obtain ⟨v, tr₃, ⟨hno, hv, h⟩ | ⟨hyes, hv, h⟩⟩ := hu.remove h
        · obtain ⟨-, rfl, rfl⟩ := Prog.alone_ret.1 h
          exact ⟨_, .unlink_half ho he hne hp (fun hw => hno (hchild.2 hw)), hv⟩
        · obtain ⟨-, rfl, rfl⟩ := Prog.alone_ret.1 h
          exact ⟨_, .unlink ho he hne hp (hchild.1 hyes), hv⟩

/-- `write` and `truncate`: after the common beginning the edit decides. -/
theorem modify_cases {edit : Str → Option Str} (hr : Represents fs s) (hfile : isfile i)
    (hfits : ∀ bytes new : Str, bytes.length < 2 ^ 31 → edit bytes = some new → new.length < 2 ^ 31)
    (h : Prog.Alone serve ∅ s (cl.modify i edit) tr o s') :
    (¬ fs.MayRead cl i ∧ o = .ret ⟨.NOACCESS, .untouched⟩ ∧ Represents fs s') ∨
      (fs.MayRead cl i ∧ fs.nodes i = none ∧ o = .ret ⟨.NOENT, .untouched⟩ ∧ Represents fs s') ∨
      ∃ bytes n, fs.Opens cl i (.file bytes) n ∧ bytes.length < 2 ^ 31 ∧
        ((edit bytes = none ∧ o = .throw ∧ Represents (fs.set i n) s') ∨
          ∃ new, edit bytes = some new ∧
            ((¬ fs.MayWrite cl i ∧ o = .ret ⟨.NOACCESS, .untouched⟩ ∧ Represents (fs.set i n) s') ∨
              (fs.MayWrite cl i ∧ o = .ret ⟨.OK, .untouched⟩ ∧
                ∃ time, Represents (fs.set i (n.stored (.file new) time)) s'))) := by
  obtain ⟨-, h⟩ := Prog.alone_withLock.1 h
  obtain ⟨t, tr', ⟨hno, ht, h⟩ | ⟨hyes, hnone, ht, h⟩ | ⟨b, n, ho, hb, ht, h⟩⟩ :=
    hr.get (cl.modifyIn i edit) h
  · obtain ⟨-, rfl, rfl⟩ := Prog.alone_ret.1 h
    exact .inl ⟨hno, rfl, ht⟩
  · obtain ⟨-, rfl, rfl⟩ := Prog.alone_ret.1 h
    exact .inr (.inl ⟨hyes, hnone, rfl, ht⟩)
  · obtain ⟨bytes, rfl, hlen⟩ := exists_file hb hfile
    refine .inr (.inr ⟨bytes, n, ho, hlen, ?_⟩)
    rw [modifyIn, Body.text] at h
    cases hedit : edit bytes with
    | none =>
      rw [hedit] at h
      obtain ⟨-, rfl, rfl⟩ := Prog.alone_ret.1 h
      exact .inl ⟨rfl, rfl, ht⟩
    | some new =>
      rw [hedit] at h
      refine .inr ⟨new, rfl, ?_⟩
      obtain ⟨u, tr₂, ⟨hno, hu, h⟩ | ⟨hmay, m, hm, -, hold, hu, h⟩⟩ :=
        ht.put (b := .file new) ⟨hfile, hfits bytes new hlen hedit⟩ h
      · obtain ⟨-, rfl, rfl⟩ := Prog.alone_ret.1 h
        exact .inl ⟨fun hw => hno ((ho.mayWrite_iff i).2 hw), rfl, hu⟩
      · obtain ⟨time, rfl⟩ := hold n (nodes_set_self _)
        obtain ⟨-, rfl, rfl⟩ := Prog.alone_ret.1 h
        rw [set_set] at hu
        exact .inr ⟨(ho.mayWrite_iff i).1 hmay, rfl, time, hu⟩

theorem does_write {off : Int64} {buf : Str} (hr : Represents fs s) (hfile : isfile i)
    (hoff : 0 ≤ off.toInt) (hsum : off.toInt + buf.length < 2 ^ 31)
    (h : Prog.Alone serve ∅ s (cl.write i off buf) tr o s') :
    ∃ fs', Does cl fs (.write i off buf) o fs' ∧ Represents fs' s' := by
  have hmax : 2 ^ 31 ≤ StdString.maxSize := by decide
  have hedit : ∀ bytes : Str, bytes.length < 2 ^ 31 →
      writeContent bytes off buf = some (written off.toInt.toNat buf bytes) :=
    fun bytes hlen => Fuse.writeContent_eq hlen hoff (by omega)
  have hfits : ∀ bytes new : Str, bytes.length < 2 ^ 31 → writeContent bytes off buf = some new →
      new.length < 2 ^ 31 := by
    intro bytes new hlen hnew
    rw [hedit bytes hlen] at hnew
    obtain rfl := Option.some.inj hnew
    rw [length_written]
    omega
  rcases modify_cases hr hfile hfits h with ⟨hno, rfl, hs'⟩ | ⟨hyes, hnone, rfl, hs'⟩ |
    ⟨bytes, n, ho, hlen, ⟨hthrow, -, -⟩ | ⟨new, hnew, ⟨hno, rfl, hs'⟩ | ⟨hmay, rfl, time, hs'⟩⟩⟩
  · exact ⟨fs, .denied rfl hno, hs'⟩
  · exact ⟨fs, .missing rfl hyes hnone, hs'⟩
  · rw [hedit bytes hlen] at hthrow
    cases hthrow
  · exact ⟨_, .write_denied ho hno, hs'⟩
  · rw [hedit bytes hlen] at hnew
    obtain rfl := Option.some.inj hnew
    exact ⟨_, .write ho hmay, hs'⟩

theorem does_truncate {size : UInt64} (hr : Represents fs s) (hfile : isfile i)
    (h : Prog.Alone serve ∅ s (cl.truncate i size) tr o s') :
    ∃ fs', Does cl fs (.truncate i size) o fs' ∧ Represents fs' s' := by
  have hmax : 2 ^ 31 ≤ StdString.maxSize := by decide
  have hedit : ∀ bytes : Str, bytes.length < 2 ^ 31 → truncateContent bytes size =
      if size.toNat ≤ bytes.length then some (bytes.take (bytes.length - size.toNat)) else none :=
    fun bytes hlen => Fuse.truncateContent_eq (by omega) size
  have hfits : ∀ bytes new : Str, bytes.length < 2 ^ 31 → truncateContent bytes size = some new →
      new.length < 2 ^ 31 := by
    intro bytes new hlen hnew
    rw [hedit bytes hlen] at hnew
    split_ifs at hnew
    obtain rfl := Option.some.inj hnew
    rw [List.length_take]
    omega
  rcases modify_cases hr hfile hfits h with ⟨hno, rfl, hs'⟩ | ⟨hyes, hnone, rfl, hs'⟩ |
    ⟨bytes, n, ho, hlen, ⟨hthrow, rfl, hs'⟩ | ⟨new, hnew, hend⟩⟩
  · exact ⟨fs, .denied rfl hno, hs'⟩
  · exact ⟨fs, .missing rfl hyes hnone, hs'⟩
  · rw [hedit bytes hlen] at hthrow
    split_ifs at hthrow with hsize
    exact ⟨_, .truncate_beyond ho (by omega), hs'⟩
  · rw [hedit bytes hlen] at hnew
    split_ifs at hnew with hsize
    obtain rfl := Option.some.inj hnew
    rcases hend with ⟨hno, rfl, hs'⟩ | ⟨hmay, rfl, time, hs'⟩
    · exact ⟨_, .truncate_denied ho hsize hno, hs'⟩
    · exact ⟨_, .truncate ho hsize hmay, hs'⟩

/-- `read` of the content `buf`. -/
def readIn (off : Int64) (size : UInt64) (buf : Str) : FsProg :=
  match readContent buf off size [] with
  | none => .ret .throw
  | some s => done .OK (.buf s)

theorem does_read {off : Int64} {size : UInt64} (hr : Represents fs s) (hfile : isfile i)
    (hoff : 0 ≤ off.toInt) (h : Prog.Alone serve ∅ s (cl.read i off size []) tr o s') :
    ∃ fs', Does cl fs (.read i off size []) o fs' ∧ Represents fs' s' := by
  have hmax : 2 ^ 31 ≤ StdString.maxSize := by decide
  obtain ⟨-, h⟩ := Prog.alone_withLock.1 h
  obtain ⟨t, tr', ⟨hno, ht, h⟩ | ⟨hyes, hnone, ht, h⟩ | ⟨b, n, ho, hb, ht, h⟩⟩ :=
    hr.get (readIn off size) h
  · obtain ⟨-, rfl, rfl⟩ := Prog.alone_ret.1 h
    exact ⟨fs, .denied rfl hno, ht⟩
  · obtain ⟨-, rfl, rfl⟩ := Prog.alone_ret.1 h
    exact ⟨fs, .missing rfl hyes hnone, ht⟩
  · obtain ⟨bytes, rfl, hlen⟩ := exists_file hb hfile
    rw [Body.text, readIn, Fuse.readContent_eq (by omega) hoff] at h
    split_ifs at h with hle
    · obtain ⟨-, rfl, rfl⟩ := Prog.alone_ret.1 h
      exact ⟨_, .read ho hle, ht⟩
    · obtain ⟨-, rfl, rfl⟩ := Prog.alone_ret.1 h
      exact ⟨_, .read_beyond ho (by omega), ht⟩

/-- `chmod`, `chuid` and `chgid`, whose edit of the record is the change `g` of the node. -/
theorem does_change (edit : Attr → Attr) {c : FsCall} {g : Node → Node} (hr : Represents fs s)
    (hc : c.stats = some i) (hg : c.changes = some g)
    (hedit : ∀ n : Node, g n = { n with
      mode := (edit n.attr).mode, uid := (edit n.attr).uid, gid := (edit n.attr).gid })
    (h : Prog.Alone serve ∅ s (cl.change i edit) tr o s') :
    ∃ fs', Does cl fs c o fs' ∧ Represents fs' s' := by
  obtain ⟨-, h⟩ := Prog.alone_withLock.1 h
  obtain ⟨tr', ⟨hnone, a, h⟩ | ⟨n, hn, h⟩⟩ := hr.getattr h
  · rw [if_pos (by simp [Resp.Is])] at h
    obtain ⟨-, rfl, rfl⟩ := Prog.alone_ret.1 h
    exact ⟨fs, .attr_missing hc hnone, hr⟩
  · rw [if_neg (by simp [Resp.Is])] at h
    obtain ⟨t, tr₂, ⟨hno, ht, h⟩ | ⟨hmay, ht, h⟩⟩ := hr.setattr hn h
    · obtain ⟨-, rfl, rfl⟩ := Prog.alone_ret.1 h
      exact ⟨fs, .change_denied hc hg hn hno, ht⟩
    · obtain ⟨-, rfl, rfl⟩ := Prog.alone_ret.1 h
      refine ⟨_, .change hc hg hn hmay, ?_⟩
      rw [hedit]
      exact ht

/-- The size in a record is the number of bytes. -/
theorem toUInt64_length {bytes : Str} (h : bytes.length < 2 ^ 31) :
    (UInt32.ofNat bytes.length).toUInt64 = UInt64.ofNat bytes.length := by
  apply UInt64.toNat_inj.1
  rw [UInt32.toNat_toUInt64, UInt32.toNat_ofNat_of_lt' (by rw [UInt32.size]; omega),
    UInt64.toNat_ofNat_of_lt' (by rw [UInt64.size]; omega)]

theorem does_getfile (hr : Represents fs s) (hfile : isfile i)
    (h : Prog.Alone serve ∅ s (cl.getfile i) tr o s') :
    ∃ fs', Does cl fs (.getfile i) o fs' ∧ Represents fs' s' := by
  obtain ⟨-, h⟩ := Prog.alone_withLock.1 h
  obtain ⟨tr', ⟨hnone, a, h⟩ | ⟨n, hn, h⟩⟩ := hr.getattr h
  · rw [if_pos (by simp [Resp.Is])] at h
    obtain ⟨-, rfl, rfl⟩ := Prog.alone_ret.1 h
    exact ⟨fs, .attr_missing rfl hnone, hr⟩
  · rw [if_neg (by simp [Resp.Is])] at h
    obtain ⟨-, rfl, rfl⟩ := Prog.alone_ret.1 h
    refine ⟨fs, ?_, hr⟩
    obtain ⟨bytes, hbytes, hlen⟩ := exists_file (hr.fits i n hn) hfile
    have hinfo : fileInfo n.attr = n.fileInfo := by
      simp only [fileInfo, Node.attr, Node.fileInfo, hbytes, Body.text, toUInt64_length hlen]
    rw [Resp.attrOr, hinfo]
    exact .getfile hn

theorem does_getdir (hr : Represents fs s) (h : Prog.Alone serve ∅ s (cl.getdir i) tr o s') :
    ∃ fs', Does cl fs (.getdir i) o fs' ∧ Represents fs' s' := by
  obtain ⟨-, h⟩ := Prog.alone_withLock.1 h
  obtain ⟨tr', ⟨hnone, a, h⟩ | ⟨n, hn, h⟩⟩ := hr.getattr h
  · rw [if_pos (by simp [Resp.Is])] at h
    obtain ⟨-, rfl, rfl⟩ := Prog.alone_ret.1 h
    exact ⟨fs, .attr_missing rfl hnone, hr⟩
  · rw [if_neg (by simp [Resp.Is])] at h
    obtain ⟨-, rfl, rfl⟩ := Prog.alone_ret.1 h
    exact ⟨fs, .getdir hn, hr⟩

/-- **Every operation is one step of the file system.** -/
theorem does_of_alone {c : FsCall} (hr : Represents fs s) (hc : c.Proper)
    (h : Prog.Alone serve ∅ s (c.prog cl) tr o s') :
    ∃ fs', Does cl fs c o fs' ∧ Represents fs' s' := by
  cases c with
  | getfile i => exact does_getfile hr hc h
  | getdir i => exact does_getdir hr h
  | lookup p name => exact does_lookup hr hc.1 hc.2 h
  | create p f name mode => exact does_create hr hc.1 hc.2.2 h
  | unlink p name => exact does_unlink hr hc.1 hc.2 h
  | readdir p => exact does_readdir hr hc h
  | write i off buf => exact does_write hr hc.1 hc.2.1 hc.2.2 h
  | read i off size buf =>
    obtain ⟨hfile, hoff, rfl⟩ := hc
    exact does_read hr hfile hoff h
  | truncate i size => exact does_truncate hr hc h
  | chmod i mode =>
    exact does_change (fun a => { a with mode := mode.toUInt32 }) hr rfl rfl (fun n => rfl) h
  | chuid i uid =>
    exact does_change (fun a => { a with uid := uid.toUInt32 }) hr rfl rfl (fun n => rfl) h
  | chgid i gid =>
    exact does_change (fun a => { a with gid := gid.toUInt32 }) hr rfl rfl (fun n => rfl) h

end FileSystem
