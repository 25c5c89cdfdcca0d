/-
# The integrity of the namespace

`fuseserver_create`, `fuseserver_mknod`, `fuseserver_mkdir` and `fuseserver_unlink` change a directory
and the extent of its entry in separate calls.  The namespace is whole when every directory entry
stands for an existing extent and every extent other than the root is the target of exactly one entry
(`Integrity`).

`Tree` is the invariant behind it: every directory extent holds the string of a `Directory`, and no
two entries anywhere have the same target.  The handlers keep it (`Tree.create`, `Tree.unlink`) unless
a directory that still has entries is unlinked, or something is created in a file.
`namespace_integrity` is the result over whole runs.
-/
import Yfs.ExtentKeys
import Yfs.Fuse

open YfsClient

namespace Fuse

/-! ## The calls -/

/-- The calls that change the namespace; `r₁` and `r₂` are what `rand` returns. -/
inductive NsCall
  | create (parent : Inum) (name : Str) (mode r₁ r₂ : UInt32)
  | mknod (parent : Inum) (name : Str) (mode r₁ r₂ : UInt32)
  | mkdir (parent : Inum) (name : Str) (mode r₁ r₂ : UInt32)
  | unlink (parent : Inum) (name : Str)
  deriving DecidableEq, Repr

/-- The handler of a call. -/
def NsCall.handler : NsCall → Handler
  | .create parent name mode r₁ r₂ => fuseserverCreate parent name mode r₁ r₂
  | .mknod parent name mode r₁ r₂ => fuseserverMknod parent name mode r₁ r₂
  | .mkdir parent name mode r₁ r₂ => fuseserverMkdir parent name mode r₁ r₂
  | .unlink parent name => fuseserverUnlink parent name

/-- The inum a call draws with `random_inum`. -/
def NsCall.draw : NsCall → Option Inum
  | .create _ _ _ r₁ r₂ | .mknod _ _ _ r₁ r₂ => some (randomInum true r₁ r₂)
  | .mkdir _ _ _ r₁ r₂ => some (randomInum false r₁ r₂)
  | .unlink _ _ => none

/-- The root directory. -/
def root : Inum := 1

/-- The extent server and the inums drawn so far. -/
structure NsState where
  server : ExtentServer
  drawn : List Inum

/-- One call by a client. -/
structure NsEvent where
  client : YfsClient
  call : NsCall

/-- One call, run to its end with every extent call succeeding.  The inum it draws has not been drawn
before and is not the root; a name that is unlinked is listed at this moment. -/
def NsStep (s : NsState) (e : NsEvent) (s' : NsState) : Prop :=
  (∀ fnum, e.call.draw = some fnum → fnum ∉ s.drawn ∧ fnum ≠ root) ∧
    (∀ parent name, e.call = .unlink parent name →
      ∃ es, listing e.client s.server parent = some es ∧ name ∈ es.map Dirent.name) ∧
    (∃ tr o, Handles e.client s.server e.call.handler tr o s'.server ∧ Succeeds tr) ∧
    s'.drawn = s.drawn ++ e.call.draw.toList

/-! ## Integrity -/

/-- **Integrity of the namespace**, as the client `cl` sees it: every directory extent can be listed,
every entry stands for an existing extent, and every extent other than the root is the target of one
entry of one directory and of no other. -/
structure Integrity (cl : YfsClient) (s : ExtentServer) : Prop where
  readable : ∀ p, isdir p = true → s.contents p ≠ none → ∃ es, listing cl s p = some es
  target : ∀ p es, isdir p = true → listing cl s p = some es → ∀ e ∈ es, s.contents e.inum ≠ none
  referenced : ∀ id, id ≠ root → s.contents id ≠ none → ∃ p es, isdir p = true ∧
    listing cl s p = some es ∧ (es.map Dirent.inum).count id = 1 ∧
    ∀ p' es', isdir p' = true → listing cl s p' = some es' → p' ≠ p → id ∉ es'.map Dirent.inum

/-- The extent `p` is a directory with the entries of `d`. -/
def Dir (m : StdMap ExtentId Str) (p : Inum) (d : Directory) : Prop :=
  isdir p = true ∧ m p = some d.text

/-- The contents of the extents as a tree of directories, all of whose extents have been drawn. -/
structure Tree (m : StdMap ExtentId Str) (drawn : List Inum) : Prop where
  dirs : ∀ p text, isdir p = true → m p = some text → ∃ d : Directory, text = d.text
  target : ∀ p d, Dir m p d → ∀ e ∈ d.entries, e.inum ≠ root ∧ m e.inum ≠ none
  nodup : ∀ p d, Dir m p d → (d.entries.map Dirent.inum).Nodup
  disjoint : ∀ p d p' d', Dir m p d → Dir m p' d' → ∀ e ∈ d.entries, ∀ e' ∈ d'.entries,
    e.inum = e'.inum → p = p'
  parent : ∀ id, id ≠ root → m id ≠ none → ∃ p d, Dir m p d ∧ id ∈ d.entries.map Dirent.inum
  known : ∀ id, m id ≠ none → id = root ∨ id ∈ drawn

/-- A directory string determines the entries. -/
theorem entries_eq_of_text {d d' : Directory} (h : d.text = d'.text) : d.entries = d'.entries := by
  have hd := d.pairs_text ⟨0, [], 0, 0, default, 0⟩
  rw [h, Directory.pairs_text] at hd
  exact (Option.some.inj hd).symm

theorem Dir.entries_eq {m : StdMap ExtentId Str} {p : Inum} {d d' : Directory} (h : Dir m p d)
    (h' : m p = some d'.text) : d.entries = d'.entries :=
  entries_eq_of_text (Option.some.inj (h.2.symm.trans h'))

/-- **A tree has integrity.** -/
theorem Tree.integrity {s : ExtentServer} {drawn : List Inum} (h : Tree s.contents drawn)
    (cl : YfsClient) : Integrity cl s := by
  have hlist : ∀ p d, Dir s.contents p d → listing cl s p = some d.entries := by
    intro p d hd
    rw [listing, hd.2, Option.bind_some, d.pairs_text]
  have hdir : ∀ p es, isdir p = true → listing cl s p = some es →
      ∃ d, Dir s.contents p d ∧ d.entries = es := by
    intro p es hp hes
    obtain ⟨text, htext, -⟩ := Option.bind_eq_some_iff.1 hes
    obtain ⟨d, rfl⟩ := h.dirs p text hp htext
    refine ⟨d, ⟨hp, htext⟩, ?_⟩
    exact Option.some.inj ((hlist p d ⟨hp, htext⟩).symm.trans hes)
  refine ⟨?_, ?_, ?_⟩
  · intro p hp hne
    obtain ⟨text, htext⟩ := Option.ne_none_iff_exists'.1 hne
    obtain ⟨d, rfl⟩ := h.dirs p text hp htext
    exact ⟨d.entries, hlist p d ⟨hp, htext⟩⟩
  · intro p es hp hes e he
    obtain ⟨d, hd, rfl⟩ := hdir p es hp hes
    exact (h.target p d hd e he).2
  · intro id hid hne
    obtain ⟨p, d, hd, hmem⟩ := h.parent id hid hne
    refine ⟨p, d.entries, hd.1, hlist p d hd, List.count_eq_one_of_mem (h.nodup p d hd) hmem, ?_⟩
    intro p' es' hp' hes' hpp hmem'
    obtain ⟨d', hd', rfl⟩ := hdir p' es' hp' hes'
    obtain ⟨e, he, rfl⟩ := List.mem_map.1 hmem
    obtain ⟨e', he', heq⟩ := List.mem_map.1 hmem'
    exact hpp (h.disjoint p' d' p d hd' hd e' he' e he heq)

/-! ## What a call does to the tree -/

/-- The namespace of a fresh server: the root directory, which is empty. -/
theorem tree_init (time : UInt32) (uid : UserId) (gid : GroupId) :
    Tree (ExtentServer.init time uid gid).contents [] := by
  have hroot : ∀ p text, (ExtentServer.init time uid gid).contents p = some text →
      p = root ∧ text = [] := by
    intro p text h
    by_cases hp : p = root
    · subst hp
      exact ⟨rfl, (Option.some.inj h).symm⟩
    · have hset : StdMap.set (fun _ => none) root ([] : Str) p = some text := h
      rw [StdMap.set_of_ne _ _ hp] at hset
      cases hset
  have hempty : ∀ p d, Dir (ExtentServer.init time uid gid).contents p d → d.entries = [] := by
    intro p d hd
    have htext : d.text = Directory.empty.text := (hroot p _ hd.2).2
    exact entries_eq_of_text htext
  refine ⟨?_, ?_, ?_, ?_, ?_, ?_⟩
  · intro p text _ h
    exact ⟨Directory.empty, (hroot p text h).2⟩
  · intro p d hd e he
    rw [hempty p d hd] at he
    cases he
  · intro p d hd
    rw [hempty p d hd]
    exact List.nodup_nil
  · intro p d p' d' hd _ e he
    rw [hempty p d hd] at he
    cases he
  · intro id hid hne
    obtain ⟨text, htext⟩ := Option.ne_none_iff_exists'.1 hne
    exact absurd (hroot id text htext).1 hid
  · intro id hne
    obtain ⟨text, htext⟩ := Option.ne_none_iff_exists'.1 hne
    exact .inl (hroot id text htext).1

section Create

variable {m : StdMap ExtentId Str} {drawn : List Inum} {p fnum : Inum} {d : Directory} {name : Str}

/-- A drawn inum that is new has no extent. -/
theorem Tree.absent (h : Tree m drawn) (hfresh : fnum ∉ drawn) (hroot : fnum ≠ root) :
    m fnum = none := by
  by_contra hne
  exact (h.known fnum hne).elim hroot hfresh

/-- The contents after the entry of `fnum` has been added to the string of `p` and an empty extent has
been made. -/
def created (m : StdMap ExtentId Str) (p : Inum) (d : Directory) (name : Str) (fnum : Inum) :
    StdMap ExtentId Str :=
  (m.set p (d.text ++ entry name fnum)).set fnum []

theorem created_of_ne {id : Inum} (hp : id ≠ p) (hf : id ≠ fnum) :
    created m p d name fnum id = m id := by
  rw [created, StdMap.set_of_ne _ _ hf, StdMap.set_of_ne _ _ hp]

theorem created_self : created m p d name fnum fnum = some [] := StdMap.set_self ..

theorem created_parent (hpf : p ≠ fnum) (hne : name ≠ []) (hname : slash ∉ name)
    (hnew : ¬ name <:+: d.text) :
    created m p d name fnum p = some (d.add ⟨name, fnum⟩ hne hname hnew).text := by
  rw [created, StdMap.set_of_ne _ _ hpf, StdMap.set_self, Directory.add_text]

theorem created_ne_none_iff (hd : Dir m p d) {id : Inum} :
    created m p d name fnum id ≠ none ↔ id = fnum ∨ m id ≠ none := by
  by_cases hf : id = fnum
  · subst hf
    simp [created_self]
  · by_cases hp : id = p
    · subst hp
      rw [created, StdMap.set_of_ne _ _ hf, StdMap.set_self, hd.2]
      simp
    · rw [created_of_ne hp hf]
      simp [hf]

/-- The directories after a `create`: the parent with one more entry, possibly a new empty one, and
the others. -/
theorem dir_created (hpf : p ≠ fnum) (hne : name ≠ []) (hname : slash ∉ name)
    (hnew : ¬ name <:+: d.text) {q : Inum} {d' : Directory}
    (h : Dir (created m p d name fnum) q d') :
    (q = p ∧ d'.entries = d.entries ++ [⟨name, fnum⟩]) ∨ (q = fnum ∧ d'.entries = []) ∨
      (q ≠ p ∧ q ≠ fnum ∧ Dir m q d') := by
  by_cases hq : q = fnum
  · subst hq
    have htext : created m p d name q q = some Directory.empty.text := created_self
    exact .inr (.inl ⟨rfl, h.entries_eq htext⟩)
  · by_cases hqp : q = p
    · subst hqp
      exact .inl ⟨rfl, h.entries_eq (created_parent hpf hne hname hnew)⟩
    · refine .inr (.inr ⟨hqp, hq, h.1, ?_⟩)
      rw [← h.2, created_of_ne hqp hq]

/-- An entry of the new tree is the new one, or an old one of the same directory. -/
theorem Tree.entry_created (h : Tree m drawn) (hd : Dir m p d) (hpf : p ≠ fnum) (hne : name ≠ [])
    (hname : slash ∉ name) (hnew : ¬ name <:+: d.text) {q : Inum} {d' : Directory}
    (hd' : Dir (created m p d name fnum) q d') {e : Dirent} (he : e ∈ d'.entries) :
    (e.inum = fnum ∧ q = p) ∨ (m e.inum ≠ none ∧ ∃ d'', Dir m q d'' ∧ e ∈ d''.entries) := by
  rcases dir_created hpf hne hname hnew hd' with ⟨rfl, hes⟩ | ⟨-, hes⟩ | ⟨-, -, hq⟩
  · rw [hes] at he
    rcases List.mem_append.1 he with he | he
    · exact .inr ⟨(h.target q d hd e he).2, d, hd, he⟩
    · obtain rfl := List.mem_singleton.1 he
      exact .inl ⟨rfl, rfl⟩
  · rw [hes] at he
    cases he
  · exact .inr ⟨(h.target q d' hq e he).2, d', hq, he⟩

/-- An entry of the old tree is there in the new one, in the same directory. -/
theorem entry_kept_created (hd : Dir m p d) (habsent : m fnum = none) (hpf : p ≠ fnum)
    (hne : name ≠ []) (hname : slash ∉ name) (hnew : ¬ name <:+: d.text) {q : Inum} {dq : Directory}
    (hq : Dir m q dq) {id : Inum} (hmem : id ∈ dq.entries.map Dirent.inum) :
    ∃ d', Dir (created m p d name fnum) q d' ∧ id ∈ d'.entries.map Dirent.inum := by
  by_cases hqp : q = p
  · subst hqp
    rw [hq.entries_eq hd.2] at hmem
    obtain ⟨e, he, rfl⟩ := List.mem_map.1 hmem
    refine ⟨_, ⟨hd.1, created_parent hpf hne hname hnew⟩, List.mem_map.2 ⟨e, ?_, rfl⟩⟩
    exact (d.mem_add hne hname hnew).2 (.inl he)
  · have hqf : q ≠ fnum := by
      rintro rfl
      rw [hq.2] at habsent
      cases habsent
    exact ⟨dq, ⟨hq.1, by rw [created_of_ne hqp hqf, hq.2]⟩, hmem⟩

/-- **A `create` keeps the tree.** -/
theorem Tree.create (h : Tree m drawn) (hd : Dir m p d) (hfresh : fnum ∉ drawn) (hroot : fnum ≠ root)
    (hname : slash ∉ name) (hnew : ¬ name <:+: d.text) :
    Tree (created m p d name fnum) (drawn ++ [fnum]) := by
  have habsent := h.absent hfresh hroot
  have hpf : p ≠ fnum := by
    rintro rfl
    rw [hd.2] at habsent
    cases habsent
  have hne : name ≠ [] := by
    rintro rfl
    exact hnew List.nil_infix
  have hparent := created_parent (m := m) hpf hne hname hnew
  refine ⟨?_, ?_, ?_, ?_, ?_, ?_⟩
  · intro q text hq htext
    by_cases hf : q = fnum
    · subst hf
      rw [created_self] at htext
      exact ⟨Directory.empty, (Option.some.inj htext).symm⟩
    · by_cases hqp : q = p
      · subst hqp
        exact ⟨_, Option.some.inj (htext.symm.trans hparent)⟩
      · rw [created_of_ne hqp hf] at htext
        exact h.dirs q text hq htext
  · intro q d' hd' e he
    rcases h.entry_created hd hpf hne hname hnew hd' he with ⟨hf, -⟩ | ⟨hm, d'', hd'', he'⟩
    · rw [hf]
      exact ⟨hroot, (created_ne_none_iff hd).2 (.inl rfl)⟩
    · exact ⟨(h.target q d'' hd'' e he').1, (created_ne_none_iff hd).2 (.inr hm)⟩
  · intro q d' hd'
    rcases dir_created hpf hne hname hnew hd' with ⟨rfl, hes⟩ | ⟨-, hes⟩ | ⟨-, -, hq⟩
    · rw [hes, List.map_append]
      refine List.Nodup.append (h.nodup q d hd) (List.nodup_singleton _) ?_
      intro x hx hx'
      obtain ⟨e, he, rfl⟩ := List.mem_map.1 hx
      have hinum : e.inum = fnum := by simpa using hx'
      exact (h.target q d hd e he).2 (by rw [hinum, habsent])
    · rw [hes]
      exact List.nodup_nil
    · exact h.nodup q d' hq
  · intro q d' q' d'' hq hq' e he e' he' heq
    rcases h.entry_created hd hpf hne hname hnew hq he with ⟨hf, rfl⟩ | ⟨hm, d₁, hd₁, he₁⟩
    · rcases h.entry_created hd hpf hne hname hnew hq' he' with ⟨-, rfl⟩ | ⟨hm', -⟩
      · rfl
      · rw [← heq, hf] at hm'
        exact absurd habsent hm'
    · rcases h.entry_created hd hpf hne hname hnew hq' he' with ⟨hf', -⟩ | ⟨-, d₂, hd₂, he₂⟩
      · rw [heq, hf'] at hm
        exact absurd habsent hm
      · exact h.disjoint q d₁ q' d₂ hd₁ hd₂ e he₁ e' he₂ heq
  · intro id hid hidm
    rcases (created_ne_none_iff hd).1 hidm with rfl | hm
    · refine ⟨p, _, ⟨hd.1, hparent⟩, List.mem_map.2 ⟨⟨name, id⟩, ?_, rfl⟩⟩
      exact (d.mem_add hne hname hnew).2 (.inr rfl)
    · obtain ⟨q, dq, hq, hmem⟩ := h.parent id hid hm
      exact ⟨q, entry_kept_created hd habsent hpf hne hname hnew hq hmem⟩
  · intro id hidm
    rcases (created_ne_none_iff hd).1 hidm with rfl | hm
    · exact .inr (by simp)
    · exact (h.known id hm).imp_right (List.mem_append_left _)

end Create

section Unlink

variable {m : StdMap ExtentId Str} {drawn : List Inum} {p : Inum} {d : Directory} {e : Dirent}

/-- The contents after the entry `e` has been taken out of the string of `p` and its extent has been
removed. -/
def unlinked (m : StdMap ExtentId Str) (p : Inum) (d : Directory) (e : Dirent) :
    StdMap ExtentId Str :=
  (m.set p (d.remove e.name).text).erase e.inum

theorem unlinked_parent (hne : p ≠ e.inum) :
    unlinked m p d e p = some (d.remove e.name).text := by
  rw [unlinked, StdMap.erase_of_ne _ hne, StdMap.set_self]

theorem unlinked_of_ne {id : Inum} (hp : id ≠ p) (he : id ≠ e.inum) : unlinked m p d e id = m id := by
  rw [unlinked, StdMap.erase_of_ne _ he, StdMap.set_of_ne _ _ hp]

theorem unlinked_ne_none_iff (hd : Dir m p d) {id : Inum} :
    unlinked m p d e id ≠ none ↔ id ≠ e.inum ∧ m id ≠ none := by
  by_cases he : id = e.inum
  · subst he
    simp [unlinked]
  · by_cases hp : id = p
    · subst hp
      rw [unlinked_parent he, hd.2]
      simp [he]
    · rw [unlinked_of_ne hp he]
      simp [he]

/-- The directories after an `unlink`: the parent without the entry, and the others. -/
theorem dir_unlinked (hne : p ≠ e.inum) {q : Inum} {d' : Directory}
    (h : Dir (unlinked m p d e) q d') :
    (q = p ∧ d'.entries = (d.remove e.name).entries) ∨ (q ≠ p ∧ q ≠ e.inum ∧ Dir m q d') := by
  have hq : q ≠ e.inum := by
    rintro rfl
    have htext := h.2
    rw [unlinked, StdMap.erase_self] at htext
    cases htext
  by_cases hqp : q = p
  · subst hqp
    exact .inl ⟨rfl, h.entries_eq (unlinked_parent hne)⟩
  · refine .inr ⟨hqp, hq, h.1, ?_⟩
    rw [← h.2, unlinked_of_ne hqp hq]

/-- An entry of the new tree is an old one of the same directory, with another target. -/
theorem Tree.entry_unlinked (h : Tree m drawn) (hd : Dir m p d) (he : e ∈ d.entries)
    (hne : e.inum ≠ p) {q : Inum} {d' : Directory} (hd' : Dir (unlinked m p d e) q d') {x : Dirent}
    (hx : x ∈ d'.entries) : x.inum ≠ e.inum ∧ ∃ d'', Dir m q d'' ∧ x ∈ d''.entries := by
  rcases dir_unlinked hne.symm hd' with ⟨rfl, hes⟩ | ⟨hqp, -, hq⟩
  · rw [hes] at hx
    obtain ⟨hx, hname⟩ := List.mem_filter.1 hx
    refine ⟨fun heq => ?_, d, hd, hx⟩
    obtain rfl := List.inj_on_of_nodup_map (h.nodup q d hd) hx he heq
    simp at hname
  · exact ⟨fun heq => hqp (h.disjoint q d' p d hq hd x hx e he heq), d', hq, hx⟩

/-- An entry of the old tree with another target is there in the new one, in the same directory. -/
theorem entry_kept_unlinked (hd : Dir m p d) (he : e ∈ d.entries) (hne : e.inum ≠ p)
    (hempty : isdir e.inum = true → m e.inum = some []) {q : Inum} {dq : Directory} (hq : Dir m q dq)
    {id : Inum} (hide : id ≠ e.inum) (hmem : id ∈ dq.entries.map Dirent.inum) :
    ∃ d', Dir (unlinked m p d e) q d' ∧ id ∈ d'.entries.map Dirent.inum := by
  by_cases hqp : q = p
  · subst hqp
    refine ⟨d.remove e.name, ⟨hd.1, unlinked_parent hne.symm⟩, ?_⟩
    rw [hq.entries_eq hd.2] at hmem
    obtain ⟨x, hx, rfl⟩ := List.mem_map.1 hmem
    refine List.mem_map.2 ⟨x, List.mem_filter.2 ⟨hx, ?_⟩, rfl⟩
    simp only [decide_eq_true_eq]
    intro hname
    exact hide (congrArg Dirent.inum (List.inj_on_of_nodup_map d.nodup_names hx he hname))
  · -- a directory with an entry is not the one that was removed
    have hqe : q ≠ e.inum := by
      rintro rfl
      have hnil : dq.entries = Directory.empty.entries := hq.entries_eq (hempty hq.1)
      rw [hnil] at hmem
      cases hmem
    exact ⟨dq, ⟨hq.1, by rw [unlinked_of_ne hqp hqe, hq.2]⟩, hmem⟩

/-- **An `unlink` of a file or of an empty directory keeps the tree.** -/
theorem Tree.unlink (h : Tree m drawn) (hd : Dir m p d) (he : e ∈ d.entries) (hne : e.inum ≠ p)
    (hempty : isdir e.inum = true → m e.inum = some []) : Tree (unlinked m p d e) drawn := by
  refine ⟨?_, ?_, ?_, ?_, ?_, ?_⟩
  · intro q text hq htext
    have hqe : q ≠ e.inum := by
      rintro rfl
      rw [unlinked, StdMap.erase_self] at htext
      cases htext
    by_cases hqp : q = p
    · subst hqp
      exact ⟨_, Option.some.inj (htext.symm.trans (unlinked_parent hqe))⟩
    · rw [unlinked_of_ne hqp hqe] at htext
      exact h.dirs q text hq htext
  · intro q d' hd' x hx
    obtain ⟨hxe, d'', hd'', hx'⟩ := h.entry_unlinked hd he hne hd' hx
    obtain ⟨hr, hm⟩ := h.target q d'' hd'' x hx'
    exact ⟨hr, (unlinked_ne_none_iff hd).2 ⟨hxe, hm⟩⟩
  · intro q d' hd'
    rcases dir_unlinked hne.symm hd' with ⟨rfl, hes⟩ | ⟨-, -, hq⟩
    · rw [hes]
      exact (h.nodup q d hd).sublist (List.filter_sublist.map _)
    · exact h.nodup q d' hq
  · intro q d' q' d'' hq hq' x hx y hy heq
    obtain ⟨-, d₁, hd₁, hx₁⟩ := h.entry_unlinked hd he hne hq hx
    obtain ⟨-, d₂, hd₂, hy₂⟩ := h.entry_unlinked hd he hne hq' hy
    exact h.disjoint q d₁ q' d₂ hd₁ hd₂ x hx₁ y hy₂ heq
  · intro id hid hidm
    obtain ⟨hide, hm⟩ := (unlinked_ne_none_iff hd).1 hidm
    obtain ⟨q, dq, hq, hmem⟩ := h.parent id hid hm
    exact ⟨q, entry_kept_unlinked hd he hne hempty hq hide hmem⟩
  · intro id hidm
    exact h.known id ((unlinked_ne_none_iff hd).1 hidm).2

end Unlink

/-! ## The handlers -/

section Handlers

variable {cl : YfsClient} {s s' : ExtentServer} {tr : List (ExtentCall × Resp)}
  {o : Outcome FuseReply} {parent : Inum} {name : Str}

theorem succeeds_append {tr tr' : List (ExtentCall × Resp)} (h : Succeeds (tr ++ tr')) :
    Succeeds tr ∧ Succeeds tr' :=
  ⟨fun x hx => h x (List.mem_append_left _ hx), fun x hx => h x (List.mem_append_right _ hx)⟩

/-- A `create` whose calls succeed finds its parent. -/
theorem create_parent {fnum : Inum} {mode : UInt32} {a : Outcome FsReply}
    (h : Prog.Alone serve ∅ s (cl.create parent fnum name mode) tr a s') (hok : Succeeds tr) :
    ∃ text, s.contents parent = some text := by
  rw [YfsClient.create, Prog.alone_withLock, Prog.alone_withLock] at h
  obtain ⟨r, s₁, tr', -, hbuf, -⟩ := alone_ec_ok h.2.2 hok
  exact ⟨_, hbuf rfl⟩

/-- **What the handlers that create do to the contents**: nothing, or the entry and the extent are
made. -/
theorem creating_ok {success : EntryParam → FuseReply} {isFile : Bool} {mode r₁ r₂ : UInt32}
    (hparse : ∀ text, s.contents parent = some text → ∃ d : Directory, text = d.text)
    (h : Handles cl s (creating success isFile parent name mode r₁ r₂) tr o s') (hok : Succeeds tr) :
    s'.contents = s.contents ∨ ∃ d : Directory, s.contents parent = some d.text ∧
      ¬ name <:+: d.text ∧
      s'.contents = created s.contents parent d name (randomInum isFile r₁ r₂) := by
  obtain ⟨stack, finum, tr₁, a, s₁, halone, hrest⟩ := handles_call h
  have hok₁ : Succeeds tr₁ := by
    rcases hrest with ⟨r, tr₂, -, rfl, -⟩ | ⟨-, rfl, -⟩
    · exact (succeeds_append hok).1
    · exact hok
  obtain ⟨text, htext⟩ := create_parent halone hok₁
  obtain ⟨d, rfl⟩ := hparse text htext
  obtain ⟨-, hcreate⟩ := create_ok htext halone hok₁
  -- after the call only the attributes of the new extent are read
  have hsame : s'.contents = s₁.contents := by
    rcases hrest with ⟨r, tr₂, -, rfl, hk⟩ | ⟨-, -, rfl, -⟩
    · split_ifs at hk with hst
      · rw [(handles_ret.1 hk).2.2]
      · refine getattr_contents ?_ hk (succeeds_append hok).2
        intro ret st
        split_ifs <;> exact ⟨_, rfl⟩
    · rfl
  rw [hsame]
  rcases hcreate with ⟨-, hcontents⟩ | ⟨-, hnew, hcontents⟩
  · exact .inl hcontents
  · exact .inr ⟨d, htext, hnew, hcontents⟩

/-- **What `fuseserver_unlink` of a listed name does to the contents**: the entry and its extent go. -/
theorem unlink_handler_ok {d : Directory} {e : Dirent} (hdir : isfile parent = false)
    (htext : s.contents parent = some d.text) (he : e ∈ d.entries)
    (h : Handles cl s (fuseserverUnlink parent e.name) tr o s') (hok : Succeeds tr) :
    e.inum ≠ parent ∧ s'.contents = unlinked s.contents parent d e := by
  rw [fuseserverUnlink, hdir] at h
  obtain ⟨stack, finum, tr₁, a, s₁, halone, hrest⟩ := handles_call h
  have hok₁ : Succeeds tr₁ := by
    rcases hrest with ⟨r, tr₂, -, rfl, -⟩ | ⟨-, rfl, -⟩
    · exact (succeeds_append hok).1
    · exact hok
  obtain ⟨ha, -, hne, hcontents⟩ := unlink_ok htext he halone hok₁
  refine ⟨hne, ?_⟩
  rcases hrest with ⟨r, tr₂, hr, -, hk⟩ | ⟨hno, -⟩
  · rw [ha] at hr
    cases hr
    rw [(handles_ret.1 hk).2.2]
    exact hcontents
  · exact absurd ha (hno _)

end Handlers

/-! ## Whole runs -/

/-- The calls after which the namespace is still whole: names have no slash, something is created
in a directory only, and what is unlinked is a file or an empty directory. -/
def Careful (s : NsState) (e : NsEvent) : Prop :=
  match e.call with
  | .create parent name _ _ _ | .mknod parent name _ _ _ | .mkdir parent name _ _ _ =>
    isdir parent = true ∧ slash ∉ name
  | .unlink parent name => ∀ es, listing e.client s.server parent = some es → ∀ x ∈ es,
      x.name = name → isdir x.inum = true → s.server.contents x.inum = some []

/-- A call that creates, in a directory and under a name without a slash. -/
theorem Tree.creating {cl : YfsClient} {s s' : ExtentServer} {drawn : List Inum}
    {tr : List (ExtentCall × Resp)} {o : Outcome FuseReply} {success : EntryParam → FuseReply}
    {isFile : Bool} {parent : Inum} {name : Str} {mode r₁ r₂ : UInt32} (ht : Tree s.contents drawn)
    (hfresh : randomInum isFile r₁ r₂ ∉ drawn) (hroot : randomInum isFile r₁ r₂ ≠ root)
    (hdir : isdir parent = true) (hname : slash ∉ name)
    (h : Handles cl s (Fuse.creating success isFile parent name mode r₁ r₂) tr o s')
    (hok : Succeeds tr) : Tree s'.contents (drawn ++ [randomInum isFile r₁ r₂]) := by
  rcases creating_ok (fun text => ht.dirs parent text hdir) h hok with hs | ⟨d, htext, hnew, hs⟩
  · rw [hs]
    exact { ht with known := fun id hid => (ht.known id hid).imp_right (List.mem_append_left _) }
  · rw [hs]
    exact ht.create ⟨hdir, htext⟩ hfresh hroot hname hnew

/-- **One careful call keeps the tree.** -/
theorem tree_step {s s' : NsState} {e : NsEvent} (ht : Tree s.server.contents s.drawn)
    (h : Guarded Careful NsStep s e s') : Tree s'.server.contents s'.drawn := by
  obtain ⟨hcare, hdraw, hlisted, ⟨tr, o, hrun, hok⟩, hdrawn⟩ := h
  obtain ⟨cl, call⟩ := e
  rw [hdrawn]
  cases call with
  | create parent name mode r₁ r₂ =>
    obtain ⟨hfresh, hroot⟩ := hdraw _ rfl
    exact ht.creating hfresh hroot hcare.1 hcare.2 hrun hok
  | mknod parent name mode r₁ r₂ =>
    obtain ⟨hfresh, hroot⟩ := hdraw _ rfl
    exact ht.creating hfresh hroot hcare.1 hcare.2 hrun hok
  | mkdir parent name mode r₁ r₂ =>
    obtain ⟨hfresh, hroot⟩ := hdraw _ rfl
    exact ht.creating hfresh hroot hcare.1 hcare.2 hrun hok
  | unlink parent name =>
    obtain ⟨es, hes, hmem⟩ := hlisted parent name rfl
    obtain ⟨e, he, rfl⟩ := List.mem_map.1 hmem
    show Tree s'.server.contents (s.drawn ++ [])
    rw [List.append_nil]
    cases hf : isfile parent with
    | true =>
      -- the handler refuses the call
      have hrun' : Handles cl s.server (fuseserverUnlink parent e.name) tr o s'.server := hrun
      rw [fuseserverUnlink, hf] at hrun'
      rw [(handles_ret.1 hrun').2.2]
      exact ht
    | false =>
      obtain ⟨text, htext, hpairs⟩ := Option.bind_eq_some_iff.1 hes
      have hdir : isdir parent = true := by rw [isdir, hf]; rfl
      obtain ⟨d, rfl⟩ := ht.dirs parent text hdir htext
      obtain rfl : d.entries = es := by
        rw [d.pairs_text] at hpairs
        exact Option.some.inj hpairs
      obtain ⟨hne, hs⟩ := unlink_handler_ok hf htext he hrun hok
      rw [hs]
      exact ht.unlink ⟨hdir, htext⟩ he hne (hcare d.entries hes e he rfl)

/-- **Namespace integrity.**  In every run from a fresh server in which names have no slash, nothing is
created in a file and no directory with entries is unlinked, the namespace is whole. -/
theorem namespace_integrity {time : UInt32} {uid : UserId} {gid : GroupId} {t : List NsEvent}
    {s : NsState}
    (hrun : Trace (Guarded Careful NsStep) ⟨ExtentServer.init time uid gid, []⟩ t s)
    (cl : YfsClient) : Integrity cl s.server := by
  have htree : Tree s.server.contents s.drawn :=
    Trace.invariant (I := fun s : NsState => Tree s.server.contents s.drawn)
      (tree_init time uid gid) (fun _ _ _ ht hs => tree_step ht hs) hrun
  exact htree.integrity cl

/-! ## Calls that succeed -/

/-- Every extent may be read and written by everybody, and the key of the client is accepted. -/
structure Open (cl : YfsClient) (s : ExtentServer) : Prop where
  keys : s.SameKeys
  key : s.userkeys.get cl.userid = cl.userkey
  modes : ∀ id a, s.attrs id = some a → a.mode &&& 0o006 = 0o006

section Open

variable {cl : YfsClient} {s s' : ExtentServer}

theorem Open.permits (h : Open cl s) (id : ExtentId) (bits : ExtentServer.PermBits)
    (hbits : (0o006 : UInt32) &&& bits.other ≠ 0) (hsub : (0o006 : UInt32) &&& bits.other = bits.other) :
    s.Permits bits id cl.userid := by
  intro a ha
  left
  rw [← hsub, ← UInt32.and_assoc, h.modes id a ha]
  exact hbits

/-- The calls of the client whose extent exists, and that leave the extents open. -/
def Harmless (s : ExtentServer) (op : ExtentOp) (id : ExtentId) : Prop :=
  match op with
  | .put _ => True
  | .setattr a => a.mode &&& 0o006 = 0o006 ∧ s.contents id ≠ none
  | .get | .getattr | .remove => s.contents id ≠ none

/-- In an open state such a call succeeds. -/
theorem serve_open_ok (h : Open cl s) (env : Env) {op : ExtentOp} {id : ExtentId}
    (hop : Harmless s op id) : (serve env ⟨op, id, cl.userid, cl.userkey⟩ s).1.Is .OK := by
  have hread := h.permits id ExtentServer.readBits (by decide) (by decide)
  have hwrite := h.permits id ExtentServer.writeBits (by decide) (by decide)
  cases op with
  | put buf =>
    show (s.put env id buf cl.userid cl.userkey).1.status = .OK
    rw [ExtentServer.put_eq]
    obtain ⟨t, -, ⟨hno, -⟩ | ⟨-, heq⟩⟩ :=
      ExtentServer.guarded_spec ExtentServer.writeBits id cl.userid cl.userkey s _
    · exact absurd ⟨h.key, hwrite⟩ hno
    · rw [heq]
  | get =>
    show (s.get env id cl.userid cl.userkey).1.status = .OK
    rw [ExtentServer.get_eq, ExtentServer.guarded_status_ok h.key hread hop (by simp)]
  | getattr =>
    show (s.getattr id).1.status = .OK
    obtain ⟨b, hb⟩ := Option.ne_none_iff_exists'.1 hop
    rw [ExtentServer.getattr, hb]
  | setattr a =>
    show (s.setattr id a cl.userid cl.userkey).1.status = .OK
    rw [ExtentServer.setattr_eq, ExtentServer.guarded_status_ok h.key hwrite hop.2 (by simp)]
  | remove =>
    show (s.remove id cl.userid cl.userkey).1.status = .OK
    rw [ExtentServer.remove_eq, ExtentServer.guarded_status_ok h.key hwrite hop (by simp)]

/-- The modes stay open when a `setattr` sets an open one. -/
theorem modes_step {s' : ExtentServer} {e : ExtentServer.Event} (h : ExtentServer.Effect s e s')
    (hmodes : ∀ id a, s.attrs id = some a → a.mode &&& 0o006 = 0o006)
    (hset : ∀ id b u k, e.call = .setattr id b u k → b.mode &&& 0o006 = 0o006) :
    ∀ id a, s'.attrs id = some a → a.mode &&& 0o006 = 0o006 := by
  -- a call that writes one record only has to be looked at there
  have hwrite : ∀ (i : ExtentId) (x : Attr), x.mode &&& 0o006 = 0o006 →
      ∀ id a, s.attrs.set i x id = some a → a.mode &&& 0o006 = 0o006 := by
    intro i x hx id a ha
    by_cases hid : id = i
    · subst hid
      rw [StdMap.set_self] at ha
      cases ha
      exact hx
    · rw [StdMap.set_of_ne _ _ hid] at ha
      exact hmodes id a ha
  cases h with
  | unchanged hattrs _ _ =>
    rw [hattrs]
    exact hmodes
  | @put env id buf _ _ _ _ _ hattrs _ =>
    rw [hattrs]
    apply hwrite
    rw [ExtentServer.putAttr]
    cases ha : s.attrs id with
    | none => exact (by decide : (0o777 : UInt32) &&& 0o006 = 0o006)
    | some a => exact hmodes id a ha
  | @get env id a _ _ _ _ _ _ ha _ hattrs _ =>
    rw [hattrs]
    exact hwrite id _ (hmodes id a ha)
  | @setattr env id a b _ _ _ _ _ _ hattrs _ =>
    rw [hattrs]
    exact hwrite id _ (hset id b _ _ rfl)
  | @remove env id _ _ _ _ _ hattrs _ =>
    rw [hattrs]
    intro i a ha
    by_cases hi : i = id
    · subst hi
      rw [StdMap.erase_self] at ha
      cases ha
    · rw [StdMap.erase_of_ne _ hi] at ha
      exact hmodes i a ha

/-- Such a call leaves the state open. -/
theorem serve_open (h : Open cl s) (env : Env) {op : ExtentOp} {id : ExtentId}
    (hop : Harmless s op id) : Open cl (serve env ⟨op, id, cl.userid, cl.userkey⟩ s).2 := by
  let c : ExtentCall := ⟨op, id, cl.userid, cl.userkey⟩
  have hstep : ExtentServer.Step s ⟨env, c.toCall, (ExtentServer.exec env s c.toCall).1⟩
      (serve env c s).2 := rfl
  refine ⟨ExtentServer.step_sameKeys h.keys hstep, ?_, ?_⟩
  · have hreg : ∀ u k, c.toCall ≠ .reg u k := by
      intro u k
      cases op <;> simp [c, ExtentCall.toCall]
    rcases ExtentServer.step_userkeys hstep with ⟨u, -, hu⟩ | ⟨u, k, hc, -⟩ | ⟨u, k, k', hc, -⟩ | ⟨-, hu⟩
    · rw [hu, StdMap.get_touch, h.key]
    · exact absurd hc (hreg u k)
    · exact absurd hc (hreg u k)
    · rw [hu, h.key]
  · refine modes_step (ExtentServer.step_effect h.keys hstep) h.modes ?_
    intro i b u k hc
    cases op with
    | setattr a =>
      obtain ⟨-, rfl, -⟩ : id = i ∧ a = b ∧ _ := by simpa [c, ExtentCall.toCall] using hc
      exact hop.1
    | _ => simp [c, ExtentCall.toCall] at hc

/-- Run alone, `p` ends with `a`, every extent call succeeding, and leaves the state open. -/
def Completes (cl : YfsClient) (held : Finset ExtentId) (s : ExtentServer) (p : FsProg)
    (a : Outcome FsReply) : Prop :=
  ∃ tr s', Prog.Alone serve held s p tr a s' ∧ Succeeds tr ∧ Open cl s'

theorem completes_ret (h : Open cl s) {held : Finset ExtentId} (a : Outcome FsReply) :
    Completes cl held s (.ret a) a :=
  ⟨[], s, .ret a, by simp [Succeeds], h⟩

theorem completes_withLock {held : Finset ExtentId} {i : ExtentId} {p : FsProg}
    {a : Outcome FsReply} (hi : i ∉ held) (h : Completes cl (insert i held) s p a) :
    Completes cl held s (.withLock i p) a := by
  obtain ⟨tr, s', h, hok, hopen⟩ := h
  exact ⟨tr, s', Prog.alone_withLock.2 ⟨hi, h⟩, hok, hopen⟩

/-- A call through `ec` succeeds, and the program goes on in an open state. -/
theorem completes_ec (h : Open cl s) {held : Finset ExtentId} {op : ExtentOp} {id : ExtentId}
    {k : Resp → FsProg} {a : Outcome FsReply} (hop : Harmless s op id)
    (hk : ∀ r s₁, r.Is .OK → (op = .get → s.contents id = some (r.bufOr [])) →
      s₁.contents = (⟨op, id, cl.userid, cl.userkey⟩ : ExtentCall).effect s.contents →
      Open cl s₁ → Completes cl held s₁ (k r) a) : Completes cl held s (cl.ec op id k) a := by
  have hr := serve_open_ok h default hop
  have hget : op = .get → s.contents id =
      some ((serve default ⟨op, id, cl.userid, cl.userkey⟩ s).1.bufOr []) := by
    rintro rfl
    rcases serve_get default id cl.userid cl.userkey s with hna | hne | ⟨-, hbuf⟩
    · simpa using hr.eq hna
    · simpa using hr.eq hne
    · exact hbuf
  obtain ⟨tr, s', hrun, hok, hopen⟩ :=
    hk _ _ hr hget (serve_contents hr) (serve_open h default hop)
  refine ⟨_, s', .call default hrun, ?_, hopen⟩
  intro x hx
  rcases List.mem_cons.1 hx with rfl | hx
  · exact hr
  · exact hok x hx

/-- A write whose status is compared with `NOACCESS`. -/
theorem completes_write (h : Open cl s) {held : Finset ExtentId} {op : ExtentOp} {id : ExtentId}
    {k : FsProg} {a : Outcome FsReply} (hop : Harmless s op id)
    (hk : ∀ s₁, s₁.contents = (⟨op, id, cl.userid, cl.userkey⟩ : ExtentCall).effect s.contents →
      Open cl s₁ → Completes cl held s₁ k a) :
    Completes cl held s (cl.ec op id (fun r =>
      if r.Is .NOACCESS then done .NOACCESS else k)) a := by
  refine completes_ec h hop ?_
  intro r s₁ hr _ hs₁ hopen
  rw [if_neg (fun hna => by simpa using hr.eq hna)]
  exact hk s₁ hs₁ hopen

/-- The `get` an operation on a directory starts with. -/
theorem completes_get (h : Open cl s) {held : Finset ExtentId} {id : ExtentId} {text : Str}
    {p q : FsProg} (rest : Str → FsProg) {a : Outcome FsReply} (htext : s.contents id = some text)
    (hk : ∀ s₁, s₁.contents = s.contents → Open cl s₁ → Completes cl held s₁ (rest text) a) :
    Completes cl held s (cl.ec .get id (fun r =>
      if r.Is .NOENT then p else if r.Is .NOACCESS then q else rest (r.bufOr []))) a := by
  refine completes_ec h (by rw [Harmless, htext]; simp) ?_
  intro r s₁ hr hbuf hs₁ hopen
  rw [if_neg (fun hne => by simpa using hr.eq hne), if_neg (fun hna => by simpa using hr.eq hna),
    show r.bufOr [] = text from Option.some.inj ((hbuf rfl).symm.trans htext)]
  exact hk s₁ hs₁ hopen

/-- **A `create` in an open state** succeeds when the name is new and the string stays short. -/
theorem completes_create (h : Open cl s) {p fnum : Inum} {text name : Str} {mode : UInt32}
    (htext : s.contents p = some text) (hfp : fnum ≠ p) (hnew : ¬ name <:+: text)
    (hlen : text.length + (entry name fnum).length ≤ StdString.maxSize)
    (hmode : mode &&& 0o006 = 0o006) :
    Completes cl ∅ s (cl.create p fnum name mode) (.ret ⟨.OK, .untouched⟩) := by
  refine completes_withLock (by simp) (completes_withLock (by simpa using hfp) ?_)
  refine completes_get h (cl.createIn p fnum name mode) htext ?_
  intro s₁ _ h₁
  rw [createIn_of_new cl hnew hlen]
  refine completes_write h₁ trivial ?_
  intro s₂ _ h₂
  refine completes_write h₂ trivial ?_
  intro s₃ hs₃ h₃
  have hf₃ : s₃.contents fnum ≠ none := by
    rw [hs₃]
    show s₂.contents.set fnum [] fnum ≠ none
    simp
  refine completes_ec h₃ hf₃ ?_
  intro r s₄ _ _ hs₄ h₄
  refine completes_write h₄ ⟨hmode, ?_⟩ ?_
  · rw [hs₄]
    exact hf₃
  · intro s₅ _ h₅
    exact completes_ret h₅ _

/-- **An `unlink` of a listed name in an open state** succeeds. -/
theorem completes_unlink (h : Open cl s) {p : Inum} {d : Directory} {e : Dirent}
    (htext : s.contents p = some d.text) (he : e ∈ d.entries) (hne : e.inum ≠ p)
    (htarget : s.contents e.inum ≠ none) :
    Completes cl ∅ s (cl.unlink p e.name) (.ret ⟨.OK, .untouched⟩) := by
  refine completes_withLock (by simp) ?_
  refine completes_get h (cl.unlinkIn p e.name) htext ?_
  intro s₁ hs₁ h₁
  rw [d.unlinkIn_text cl he]
  refine completes_write h₁ trivial ?_
  intro s₂ hs₂ h₂
  refine completes_withLock (by simpa using hne) (completes_write h₂ ?_ ?_)
  · show s₂.contents e.inum ≠ none
    rw [hs₂]
    show s₁.contents.set p _ e.inum ≠ none
    rw [StdMap.set_of_ne _ _ hne, hs₁]
    exact htarget
  · intro s₃ _ h₃
    exact completes_ret h₃ _

/-- The call of `getattr` succeeds on an extent that exists. -/
theorem completes_attrCall (h : Open cl s) {inum : Inum} (hi : s.contents inum ≠ none) :
    ∃ out, Completes cl ∅ s ((attrCall inum).prog cl) (.ret ⟨.OK, out⟩) := by
  -- `getfile` and `getdir` differ in what they report only
  have hbody : ∀ out : Attr → Out, ∃ o, Completes cl ∅ s
      (.withLock inum (cl.ec .getattr inum (fun r =>
        if r.Is .NOENT then done .NOENT else done .OK (out (r.attrOr cl.stack)))))
      (.ret ⟨.OK, o⟩) := by
    intro out
    let c : ExtentCall := ⟨.getattr, inum, cl.userid, cl.userkey⟩
    have hr : (serve default c s).1.Is .OK := serve_open_ok h default hi
    refine ⟨out ((serve default c s).1.attrOr cl.stack), [(c, (serve default c s).1)],
      (serve default c s).2, Prog.alone_withLock.2 ⟨by simp, .call default ?_⟩, ?_,
      serve_open h default hi⟩
    · rw [if_neg (fun hne => by simpa using hr.eq hne)]
      exact .ret _
    · intro x hx
      obtain rfl := List.mem_singleton.1 hx
      exact hr
  unfold attrCall
  split_ifs
  · exact hbody (fun a => .fin (fileInfo a))
  · exact hbody (fun a => .din (dirInfo a))

theorem succeeds_append_of {tr tr' : List (ExtentCall × Resp)} (h : Succeeds tr)
    (h' : Succeeds tr') : Succeeds (tr ++ tr') := by
  intro x hx
  exact (List.mem_append.1 hx).elim (h x) (h' x)

/-- The handlers that create, in an open state. -/
theorem creating_completes (h : Open cl s) (success : EntryParam → FuseReply) (isFile : Bool)
    {p : Inum} {d : Directory} (name : Str) (mode r₁ r₂ : UInt32)
    (htext : s.contents p = some d.text) (hfp : randomInum isFile r₁ r₂ ≠ p)
    (hnew : ¬ name <:+: d.text)
    (hlen : d.text.length + (entry name (randomInum isFile r₁ r₂)).length ≤ StdString.maxSize)
    (hmode : mode &&& 0o006 = 0o006) :
    ∃ tr o s', Handles cl s (creating success isFile p name mode r₁ r₂) tr o s' ∧ Succeeds tr ∧
      Open cl s' ∧ s'.contents = created s.contents p d name (randomInum isFile r₁ r₂) := by
  obtain ⟨tr₁, s₁, hrun₁, hok₁, h₁⟩ := completes_create h htext hfp hnew hlen hmode
  have hs₁ : s₁.contents = created s.contents p d name (randomInum isFile r₁ r₂) := by
    obtain ⟨-, ⟨hno, -⟩ | ⟨-, -, hs⟩⟩ := create_ok htext hrun₁ hok₁
    · exact absurd rfl hno
    · exact hs
  have hf₁ : s₁.contents (randomInum isFile r₁ r₂) ≠ none := by
    rw [hs₁, created_self]
    simp
  obtain ⟨out, tr₂, s₂, hrun₂, hok₂, h₂⟩ := completes_attrCall h₁ hf₁
  have hs₂ := (attrCall_ok ⟨tr₂, hrun₂, hok₂⟩).1
  refine ⟨tr₁ ++ (tr₂ ++ []), _, s₂,
    .call cl.stack cl.finum hrun₁ (.call cl.stack cl.finum hrun₂ (.ret _)), ?_, h₂, hs₂.trans hs₁⟩
  rw [List.append_nil]
  exact succeeds_append_of hok₁ hok₂

/-- `fuseserver_unlink` of a listed name, in an open state. -/
theorem unlink_completes (h : Open cl s) {p : Inum} {d : Directory} {e : Dirent}
    (hdir : isfile p = false) (htext : s.contents p = some d.text) (he : e ∈ d.entries)
    (hne : e.inum ≠ p) (htarget : s.contents e.inum ≠ none) :
    ∃ tr o s', Handles cl s (fuseserverUnlink p e.name) tr o s' ∧ Succeeds tr ∧ Open cl s' ∧
      s'.contents = unlinked s.contents p d e := by
  obtain ⟨tr₁, s₁, hrun₁, hok₁, h₁⟩ := completes_unlink h htext he hne htarget
  obtain ⟨-, -, -, hs₁⟩ := unlink_ok htext he hrun₁ hok₁
  refine ⟨tr₁ ++ [], .ret .ok, s₁, ?_, by rwa [List.append_nil], h₁, hs₁⟩
  rw [fuseserverUnlink, hdir]
  exact .call cl.stack cl.finum hrun₁ (.ret _)

end Open

/-! ## A directory with a file in it -/

section Nested

/-- A client without a key. -/
def anyone : YfsClient := ⟨7, [], 7, 7, default, 0⟩

/-- `mkdir a` in the root. -/
def mkdirA : NsEvent := ⟨anyone, .mkdir root [97] 0o777 0 2⟩

/-- The root with the entry of `a`. -/
def dirA : Directory := Directory.empty.add ⟨[97], 2⟩ (by decide) (by decide) (by decide)

/-- `create b` in the new directory. -/
def createB : NsEvent := ⟨anyone, .create 2 [98] 0o666 0 3⟩

/-- The new directory with the entry of `b`. -/
def dirB : Directory := Directory.empty.add ⟨[98], 0x80000003⟩ (by decide) (by decide) (by decide)

theorem open_init : Open anyone (ExtentServer.init 0 0 0) := by
  refine ⟨ExtentServer.sameKeys_init 0 0 0, rfl, ?_⟩
  intro id a ha
  by_cases hid : id = 1
  · subst hid
    obtain rfl := Option.some.inj ha
    decide
  · have hset : StdMap.set (fun _ => none) 1 _ id = some a := ha
    rw [StdMap.set_of_ne _ _ hid] at hset
    cases hset

/-- The two calls succeed. -/
theorem nested_run : ∃ s, Trace (Guarded Careful NsStep) ⟨ExtentServer.init 0 0 0, []⟩
    [mkdirA, createB] s ∧ Open anyone s.server ∧ s.drawn = [2, 0x80000003] ∧
    s.server.contents root = some dirA.text ∧ s.server.contents 2 = some dirB.text ∧
    s.server.contents 0x80000003 = some [] := by
  have hA : randomInum false 0 2 = 2 := by decide
  have hB : randomInum true 0 3 = 0x80000003 := by decide
  have hroot : (ExtentServer.init 0 0 0).contents root = some Directory.empty.text := rfl
  obtain ⟨tr₁, o₁, s₁, hrun₁, hok₁, hopen₁, hs₁⟩ := creating_completes open_init .entry
    false [97] 0o777 0 2 hroot (by decide) (by decide) (by decide) (by decide)
  rw [hA] at hs₁
  have h₂ : s₁.contents 2 = some Directory.empty.text := by
    rw [hs₁, created_self]
    rfl
  obtain ⟨tr₂, o₂, s₂, hrun₂, hok₂, hopen₂, hs₂⟩ := creating_completes hopen₁ .create
    true [98] 0o666 0 3 h₂ (by decide) (by decide) (by decide) (by decide)
  rw [hB] at hs₂
  refine ⟨⟨s₂, [2, 0x80000003]⟩, ?_, hopen₂, rfl, ?_, ?_, ?_⟩
  · refine (Trace.single (s := ⟨s₁, [2]⟩) ?_).append (Trace.single ?_)
    · refine ⟨⟨by decide, by decide⟩, ?_, by simp [mkdirA], ⟨tr₁, o₁, hrun₁, hok₁⟩, ?_⟩
      · rintro fnum ⟨⟩
        exact ⟨by simp, by decide⟩
      · exact (by decide : ([2] : List Inum) = [] ++ mkdirA.call.draw.toList)
    · refine ⟨⟨by decide, by decide⟩, ?_, by simp [createB], ⟨tr₂, o₂, hrun₂, hok₂⟩, ?_⟩
      · rintro fnum ⟨⟩
        exact ⟨(by decide : randomInum true 0 3 ∉ [2]), by decide⟩
      · exact (by decide : [2, 0x80000003] = [2] ++ createB.call.draw.toList)
  · show s₂.contents root = _
    rw [hs₂, created_of_ne (by decide) (by decide), hs₁,
      created_parent (by decide) (by decide) (by decide) (by decide)]
    rfl
  · show s₂.contents 2 = _
    rw [hs₂, created_parent (by decide) (by decide) (by decide) (by decide)]
    rfl
  · show s₂.contents 0x80000003 = _
    rw [hs₂, created_self]

/-- **An unlinked directory leaves its files behind**: after `mkdir a`, `create a/b` and `unlink a` the
extent of `b` exists and no directory has an entry for it. -/
theorem unlinked_directory_orphans :
    ¬ ∀ t s cl, Trace NsStep ⟨ExtentServer.init 0 0 0, []⟩ t s → Integrity cl s.server := by
  intro hall
  obtain ⟨s, hrun, hopen, hdrawn, hroot, hsub, hfile⟩ := nested_run
  have htree : Tree s.server.contents s.drawn :=
    Trace.invariant (I := fun s : NsState => Tree s.server.contents s.drawn)
      (tree_init 0 0 0) (fun _ _ _ ht hs => tree_step ht hs) hrun
  let e : Dirent := ⟨[97], 2⟩
  have he : e ∈ dirA.entries := by decide
  obtain ⟨tr, o, s', hunlink, hok, -, hs'⟩ := unlink_completes hopen (by decide) hroot he
    (by decide) (by rw [show e.inum = 2 from rfl, hsub]; simp)
  have hstep : NsStep s ⟨anyone, .unlink root [97]⟩ ⟨s', s.drawn⟩ := by
    refine ⟨by simp [NsCall.draw], ?_, ⟨tr, o, hunlink, hok⟩, by simp [NsCall.draw]⟩
    rintro parent name ⟨⟩
    refine ⟨dirA.entries, ?_, by decide⟩
    rw [listing, hroot, Option.bind_some, dirA.pairs_text]
  have hint := hall _ _ anyone ((hrun.mono fun _ _ _ h => h.2).snoc hstep)
  have hdirA : Dir s.server.contents root dirA := ⟨by decide, hroot⟩
  have hleft : s'.contents 0x80000003 ≠ none := by
    rw [hs', unlinked_ne_none_iff hdirA, hfile]
    exact ⟨by decide, by simp⟩
  obtain ⟨p, es, hp, hes, hcount, -⟩ := hint.referenced 0x80000003 (by decide) hleft
  -- the only directory left is the root, and it is empty
  have hsome : s'.contents p ≠ none := by
    intro hnone
    rw [listing, hnone] at hes
    cases hes
  obtain ⟨hp2, hold⟩ := (unlinked_ne_none_iff hdirA).1 (hs' ▸ hsome)
  have hpr : p = root := by
    rcases htree.known p hold with hr | hmem
    · exact hr
    · rw [hdrawn] at hmem
      rcases List.mem_pair.1 hmem with rfl | rfl
      · exact absurd rfl hp2
      · exact absurd hp (by decide)
  subst hpr
  have hnil : es = [] := by
    rw [listing, hs', unlinked_parent (by decide), Option.bind_some, Directory.pairs_text] at hes
    rw [← Option.some.inj hes]
    decide
  rw [hnil] at hcount
  cases hcount

/-- The file is unlinked first, then the empty directory. -/
theorem namespace_integrity_cleanup :
    ∃ s, Trace (Guarded Careful NsStep) ⟨ExtentServer.init 0 0 0, []⟩
        [mkdirA, createB, ⟨anyone, .unlink 2 [98]⟩, ⟨anyone, .unlink root [97]⟩] s ∧
      s.server.contents 0x80000003 = none ∧ s.server.contents 2 = none ∧
      Integrity anyone s.server := by
  obtain ⟨s, hrun, hopen, hdrawn, hroot, hsub, hfile⟩ := nested_run
  let a : Dirent := ⟨[97], 2⟩
  let b : Dirent := ⟨[98], 0x80000003⟩
  have ha : a ∈ dirA.entries := by decide
  have hb : b ∈ dirB.entries := by decide
  have hdirB : Dir s.server.contents 2 dirB := ⟨by decide, hsub⟩
  obtain ⟨tr₁, o₁, s₁, hrun₁, hok₁, hopen₁, hs₁⟩ := unlink_completes hopen (by decide) hsub hb
    (by decide) (by rw [show b.inum = 0x80000003 from rfl, hfile]; simp)
  have hroot₁ : s₁.contents root = some dirA.text := by
    rw [hs₁, unlinked_of_ne (by decide) (by decide), hroot]
  have hsub₁ : s₁.contents 2 = some [] := by
    rw [hs₁, unlinked_parent (by decide)]
    decide
  obtain ⟨tr₂, o₂, s₂, hrun₂, hok₂, -, hs₂⟩ := unlink_completes hopen₁ (by decide) hroot₁ ha
    (by decide) (by rw [show a.inum = 2 from rfl, hsub₁]; simp)
  have hlist : listing anyone s.server 2 = some dirB.entries := by
    rw [listing, hsub, Option.bind_some, dirB.pairs_text]
  have hlist₁ : listing anyone s₁ root = some dirA.entries := by
    rw [listing, hroot₁, Option.bind_some, dirA.pairs_text]
  have hstep₁ : Guarded Careful NsStep s ⟨anyone, .unlink 2 [98]⟩ ⟨s₁, s.drawn⟩ := by
    refine ⟨?_, by simp [NsCall.draw], ?_, ⟨tr₁, o₁, hrun₁, hok₁⟩, by simp [NsCall.draw]⟩
    · intro es hes x hx _ hxdir
      obtain rfl := Option.some.inj (hlist.symm.trans hes)
      obtain rfl : x = b := List.mem_singleton.1 hx
      exact absurd hxdir (by decide)
    · rintro parent name ⟨⟩
      exact ⟨_, hlist, by decide⟩
  have hstep₂ : Guarded Careful NsStep ⟨s₁, s.drawn⟩ ⟨anyone, .unlink root [97]⟩ ⟨s₂, s.drawn⟩ := by
    refine ⟨?_, by simp [NsCall.draw], ?_, ⟨tr₂, o₂, hrun₂, hok₂⟩, by simp [NsCall.draw]⟩
    · intro es hes x hx _ _
      obtain rfl := Option.some.inj (hlist₁.symm.trans hes)
      obtain rfl : x = a := List.mem_singleton.1 hx
      exact hsub₁
    · rintro parent name ⟨⟩
      exact ⟨_, hlist₁, by decide⟩
  have htrace := (hrun.snoc hstep₁).snoc hstep₂
  refine ⟨_, htrace, ?_, ?_, namespace_integrity htrace anyone⟩
  · show s₂.contents 0x80000003 = none
    rw [hs₂, unlinked_of_ne (by decide) (by decide), hs₁, unlinked]
    exact StdMap.erase_self _ _
  · show s₂.contents 2 = none
    rw [hs₂, unlinked]
    exact StdMap.erase_self _ _

end Nested

end Fuse
