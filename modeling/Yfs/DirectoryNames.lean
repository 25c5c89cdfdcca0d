/-
# Names and numbers in a directory string

The client looks names up in a flat string in which names and decimal numbers alternate: `lookup` and
`unlink` take the first token that equals the name, `create` takes any place where the name occurs for
the name.  So the answers depend on how a name coincides with the names and numbers that are stored.

* `absent_clean_iff`: for a name that is not listed, `lookup` and `unlink` answer `NOENT` and change
  nothing if and only if the name is not the text of a listed number.
* `create_exact_iff`: `create` answers `EXIST` exactly for listed names and otherwise appends the
  entry, if and only if the name is listed or occurs in no listed name and in no listed number, the
  entry fits, and the number is not the directory's own.

Both are about every directory that `create` and `unlink` of listed names lead to, and about a client
whose extent calls succeed.
-/
import Yfs.CreateUnlink

open YfsClient

/-- The operation comes to its end, and however it is answered in the meantime it ends with `Q`. -/
def AlwaysEnds (s : ExtentServer) (p : FsProg) (Q : Outcome FsReply → ExtentServer → Prop) : Prop :=
  Returns ∅ s p ∧ ∀ tr a s', Prog.Alone serve ∅ s p tr a s' → Q a s'

/-! ## The tokens of a directory -/

theorem after_eq_none_iff {fname : Str} {ts : List Str} : after fname ts = none ↔ fname ∉ ts := by
  induction ts with
  | nil => simp [after]
  | cons t ts ih =>
    rw [after]
    split_ifs with ht
    · simp [ht]
    · rw [ih, List.mem_cons, not_or]
      exact ⟨fun h => ⟨fun he => ht he.symm, h⟩, fun h => h.2⟩

theorem mem_tokens {fname : Str} {es : List Dirent} :
    fname ∈ tokens es ↔ fname ∈ es.map Dirent.name ∨ ∃ e ∈ es, fname = filename e.inum := by
  rw [tokens, List.mem_flatMap]
  constructor
  · rintro ⟨e, he, hf⟩
    rcases List.mem_cons.1 hf with rfl | hf
    · exact .inl (List.mem_map_of_mem he)
    · exact .inr ⟨e, he, List.mem_singleton.1 hf⟩
  · rintro (hf | ⟨e, he, rfl⟩)
    · obtain ⟨e, he, rfl⟩ := List.mem_map.1 hf
      exact ⟨e, he, by simp⟩
    · exact ⟨e, he, by simp⟩

/-- A name that is not listed is found exactly when it is the text of a listed number. -/
theorem Directory.after_text_eq_none_iff (d : Directory) {fname : Str}
    (hnot : fname ∉ d.entries.map Dirent.name) :
    after fname (StdString.split slash d.text) = none ↔ ∀ e ∈ d.entries, fname ≠ filename e.inum := by
  rw [Directory.text, split_render (fun e he => (d.named e he).2), after_eq_none_iff, mem_tokens]
  simp [hnot]

/-! ## The state of a run -/

theorem serve_sameKeys (env : Env) (c : ExtentCall) {s : ExtentServer} (hs : s.SameKeys) :
    (serve env c s).2.SameKeys :=
  ExtentServer.step_sameKeys (e := ⟨env, c.toCall, (ExtentServer.exec env s c.toCall).1⟩) hs rfl

theorem DirStep.sameKeys {pnum : Inum} {s s' : ExtentServer} {e : DirEvent} (hs : s.SameKeys)
    (h : DirStep pnum s e s') : s'.SameKeys := by
  obtain ⟨-, tr, halone, -⟩ := h
  exact halone.invariant (fun env c s => serve_sameKeys env c) hs

/-- After a run the extent holds a `Directory`, and this is what any client lists. -/
theorem exists_directory {pnum : Inum} {s₀ s : ExtentServer} {h : List DirEvent} {cl : YfsClient}
    {es : List Dirent} (hempty : s₀.contents pnum = some []) (hrun : Trace (DirStep pnum) s₀ h s)
    (hlist : listing cl s pnum = some es) :
    ∃ d : Directory, d.entries = es ∧ s.contents pnum = some d.text := by
  obtain ⟨d, -, htext, -⟩ := Holds.run hempty hrun
  rw [listing, htext, Option.bind_some, d.pairs_text, Option.some.injEq] at hlist
  exact ⟨d, hlist, htext⟩

/-! ### A directory with one entry -/

/-- A client that anybody could be. -/
def lister : YfsClient := ⟨3, [], 3, 3, default, 0⟩

/-- The root directory of a fresh server after `ab` has been created in it with the number 5. -/
def oneEntry : ExtentServer :=
  ((perform (List.replicate 5 default) lister (.create 1 5 [97, 98] 0o644)
    (ExtentServer.init 0 0 0)).map Prod.snd).getD (ExtentServer.init 0 0 0)

theorem oneEntry_run : Trace (DirStep 1) (ExtentServer.init 0 0 0)
    [⟨lister, .create 1 5 [97, 98] 0o644, .ret ⟨.OK, .untouched⟩⟩] oneEntry := by
  have hfst : (perform (List.replicate 5 default) lister (.create 1 5 [97, 98] 0o644)
      (ExtentServer.init 0 0 0)).map Prod.fst = some (.ret ⟨.OK, .untouched⟩) := by decide
  obtain ⟨⟨o, s⟩, hperf, rfl⟩ := Option.map_eq_some_iff.1 hfst
  have hs : oneEntry = s := by rw [oneEntry, hperf]; rfl
  rw [hs]
  exact Trace.single ⟨⟨rfl, by decide, by decide⟩, performs_of_perform hperf⟩

/-- What the server holds: the directory, a key for the client, and no extent 7. -/
theorem oneEntry_holds : listing lister oneEntry 1 = some [⟨[97, 98], 5⟩] ∧
    oneEntry.userkeys.get lister.userid = lister.userkey ∧
    oneEntry.attrs 1 = some ⟨0, 0, 0, 5, 0o777, 0, 0⟩ ∧ oneEntry.attrs 7 = none := by
  decide

theorem oneEntry_listing : listing lister oneEntry 1 = some [⟨[97, 98], 5⟩] := And.left oneEntry_holds

theorem oneEntry_mayRead : lister.MayRead oneEntry 1 := by
  obtain ⟨-, hkey, hattrs, -⟩ := oneEntry_holds
  exact ⟨hkey, ExtentServer.permits_of_other hattrs (by decide) _⟩

theorem oneEntry_mayWrite : lister.MayWrite oneEntry 1 := by
  obtain ⟨-, hkey, hattrs, -⟩ := oneEntry_holds
  exact ⟨hkey, ExtentServer.permits_of_other hattrs (by decide) _⟩

/-- Nobody needs a permission for an extent that is not there. -/
theorem oneEntry_mayCreate : lister.MayWrite oneEntry 7 := by
  obtain ⟨-, hkey, -, hattrs⟩ := oneEntry_holds
  refine ⟨hkey, fun a ha => ?_⟩
  rw [hattrs] at ha
  cases ha

/-! ## Names that are not listed -/

/-- `lookup` and `unlink` answer `NOENT` and change no extent. -/
def FailsCleanly (cl : YfsClient) (s : ExtentServer) (pnum : Inum) (fname : Str) : Prop :=
  AlwaysEnds s (cl.lookup pnum fname) (fun a s' =>
      a = .ret ⟨.NOENT, .fnum 0⟩ ∧ s'.contents = s.contents) ∧
    AlwaysEnds s (cl.unlink pnum fname) (fun a s' =>
      a = .ret ⟨.NOENT, .untouched⟩ ∧ s'.contents = s.contents)

section Absent

variable {cl : YfsClient} {s s' : ExtentServer} {pnum : Inum} {fname buf : Str}
  {tr : List (ExtentCall × Resp)} {a : Outcome FsReply}

/-- How a `lookup` ends that may read the directory. -/
theorem lookup_ends (hs : s.SameKeys) (hread : cl.MayRead s pnum) (hbuf : s.contents pnum = some buf)
    (h : Prog.Alone serve ∅ s (cl.lookup pnum fname) tr a s') :
    s'.contents = s.contents ∧
      (a = .ret ⟨.NOENT, .fnum 0⟩ ↔ after fname (StdString.split slash buf) = none) := by
  obtain ⟨-, h⟩ := Prog.alone_withLock.1 h
  obtain ⟨t, tr₁, -, hc, ⟨hno, -⟩ | ⟨-, hnone, -⟩ | ⟨-, e, b, buf', -, hbuf', -, h⟩⟩ :=
    alone_get (f := fun e => e) (cl.lookupIn fname) hs h
  · exact absurd hread hno
  · rw [hbuf] at hnone
    cases hnone
  · obtain rfl := Option.some.inj (hbuf.symm.trans hbuf')
    unfold lookupIn at h
    cases hafter : after fname (StdString.split slash buf) with
    | none =>
      rw [hafter] at h
      obtain ⟨-, rfl, rfl⟩ := Prog.alone_ret.1 h
      exact ⟨hc, iff_of_true rfl rfl⟩
    | some ts =>
      rw [hafter] at h
      cases ts with
      | nil =>
        obtain ⟨-, rfl, rfl⟩ := Prog.alone_ret.1 h
        exact ⟨hc, iff_of_false (by simp) (by simp)⟩
      | cons num rest =>
        obtain ⟨-, rfl, rfl⟩ := Prog.alone_ret.1 h
        exact ⟨hc, iff_of_false (by simp) (by simp)⟩

/-- An `unlink` of a name that is no token ends with `NOENT`. -/
theorem unlink_absent (hs : s.SameKeys) (hread : cl.MayRead s pnum) (hbuf : s.contents pnum = some buf)
    (habsent : after fname (StdString.split slash buf) = none)
    (h : Prog.Alone serve ∅ s (cl.unlink pnum fname) tr a s') :
    a = .ret ⟨.NOENT, .untouched⟩ ∧ s'.contents = s.contents := by
  obtain ⟨-, h⟩ := Prog.alone_withLock.1 h
  obtain ⟨t, tr₁, -, hc, ⟨hno, -⟩ | ⟨-, hnone, -⟩ | ⟨-, e, b, buf', -, hbuf', -, h⟩⟩ :=
    alone_get (f := fun e => e) (cl.unlinkIn pnum fname) hs h
  · exact absurd hread hno
  · rw [hbuf] at hnone
    cases hnone
  · obtain rfl := Option.some.inj (hbuf.symm.trans hbuf')
    rw [unlinkIn, habsent] at h
    obtain ⟨-, rfl, rfl⟩ := Prog.alone_ret.1 h
    exact ⟨rfl, hc⟩

/-- **Names that are not listed, exactly.**  In every directory that `create` and `unlink` of listed
names lead to, and for a client that may read it: `lookup` and `unlink` of a name that `readdir` does
not list both answer `NOENT` and change nothing if and only if the name is not the decimal text of a
listed number. -/
theorem absent_clean_iff {s₀ : ExtentServer} {t : List DirEvent} {es : List Dirent}
    (hs₀ : s₀.SameKeys) (hempty : s₀.contents pnum = some []) (hrun : Trace (DirStep pnum) s₀ t s)
    (hread : cl.MayRead s pnum) (hlist : listing cl s pnum = some es)
    (hnot : fname ∉ es.map Dirent.name) :
    FailsCleanly cl s pnum fname ↔ ∀ e ∈ es, fname ≠ filename e.inum := by
  have hs : s.SameKeys := hrun.invariant hs₀ (fun _ _ _ hI hstep => hstep.sameKeys hI)
  obtain ⟨d, rfl, htext⟩ := exists_directory hempty hrun hlist
  rw [← d.after_text_eq_none_iff hnot]
  constructor
  · rintro ⟨⟨⟨tr, a, s', h⟩, hlookup⟩, -⟩
    exact (lookup_ends hs hread htext h).2.mp (hlookup tr a s' h).1
  · intro habsent
    refine ⟨⟨returns_lookup, fun tr a s' h => ?_⟩, returns_unlink_of htext ?_, fun tr a s' h => ?_⟩
    · obtain ⟨hc, hiff⟩ := lookup_ends hs hread htext h
      exact ⟨hiff.mpr habsent, hc⟩
    · intro num rest hfound
      rw [habsent] at hfound
      cases hfound
    · exact unlink_absent hs hread htext habsent h

end Absent

/-- The name `a` is neither listed nor a number. -/
theorem absent_clean_letter : FailsCleanly lister oneEntry 1 [97] := by
  refine (absent_clean_iff (ExtentServer.sameKeys_init 0 0 0) rfl oneEntry_run oneEntry_mayRead
    oneEntry_listing (by decide)).mpr ?_
  intro e he
  obtain rfl := List.mem_singleton.1 he
  decide

/-- The name `5` is the number of the only file: `lookup` steps past the last token. -/
theorem absent_number_undefined :
    ¬ ∀ (pnum : Inum) (s₀ s : ExtentServer) (t : List DirEvent) (cl : YfsClient) (fname : Str)
        (es : List Dirent), s₀.SameKeys → s₀.contents pnum = some [] → Trace (DirStep pnum) s₀ t s →
      (∀ e ∈ t, (∃ fnum name mode, e.call = .create pnum fnum name mode) ∧
        e.outcome = .ret ⟨.OK, .untouched⟩) →
      cl.MayRead s pnum → listing cl s pnum = some es → fname ≠ [] → slash ∉ fname →
      fname ∉ es.map Dirent.name → FailsCleanly cl s pnum fname := by
  intro hall
  have hclean := hall 1 _ oneEntry _ lister [53] _ (ExtentServer.sameKeys_init 0 0 0) rfl oneEntry_run
    (by simp) oneEntry_mayRead oneEntry_listing (by decide) (by decide) (by decide)
  have hsolo : ((lister.lookup 1 [53]).solo serve ∅ oneEntry [default]).map (fun x => x.2.1) =
      some .undef := by decide
  obtain ⟨⟨tr, o, s'⟩, hrun, rfl⟩ := Option.map_eq_some_iff.1 hsolo
  cases (hclean.1.2 tr _ s' (Prog.alone_of_solo _ hrun)).1

/-! ## New names -/

/-- `create` answers `EXIST` exactly when `fname` is one of the names of `es`, and otherwise answers
`OK` and appends the entry to what any client lists. -/
def CreatesExactly (cl : YfsClient) (s : ExtentServer) (pnum fnum : Inum) (fname : Str) (mode : UInt32)
    (es : List Dirent) : Prop :=
  AlwaysEnds s (cl.create pnum fnum fname mode) (fun a s' =>
    (a = .ret ⟨.EXIST, .untouched⟩ ↔ fname ∈ es.map Dirent.name) ∧
      (fname ∉ es.map Dirent.name → a = .ret ⟨.OK, .untouched⟩ ∧
        ∀ cl', listing cl' s' pnum = some (es ++ [⟨fname, fnum⟩])))

section New

variable {cl : YfsClient} {s s' : ExtentServer} {pnum fnum : Inum} {fname : Str} {mode : UInt32}
  {d : Directory} {tr : List (ExtentCall × Resp)} {a : Outcome FsReply}

/-- A listed name occurs in the string. -/
theorem Directory.infix_text_of_mem (d : Directory) (h : fname ∈ d.entries.map Dirent.name) :
    fname <:+: d.text := by
  obtain ⟨e, he, rfl⟩ := List.mem_map.1 h
  obtain ⟨hne, hslash⟩ := d.named e he
  exact (infix_render_iff hne hslash).2 ⟨e, he, .inl List.infix_rfl⟩

/-- `create` of a listed name. -/
theorem create_listed (hs : s.SameKeys) (htext : s.contents pnum = some d.text)
    (hread : cl.MayRead s pnum) (hlisted : fname ∈ d.entries.map Dirent.name)
    (h : Prog.Alone serve ∅ s (cl.create pnum fnum fname mode) tr a s') :
    a = .ret ⟨.EXIST, .untouched⟩ := by
  have hinfix := d.infix_text_of_mem hlisted
  obtain ⟨-, ⟨-, -, -, hexist⟩ | ⟨buf, hap, -⟩⟩ := create_ends (f := fun e => e) hs h
  · exact (hexist hread d.text htext).mpr hinfix
  · refine absurd hinfix ?_
    rw [Option.some.inj (htext.symm.trans hap.text)]
    exact hap.new

/-- `create` of a name that does not occur in the string. -/
theorem create_new (hs : s.SameKeys) (htext : s.contents pnum = some d.text)
    (hap : cl.Appends s pnum fnum fname d.text) (hchild : cl.MayWrite s fnum) (hname : fname ≠ [])
    (hslash : slash ∉ fname)
    (h : Prog.Alone serve ∅ s (cl.create pnum fnum fname mode) tr a s') :
    a = .ret ⟨.OK, .untouched⟩ ∧
      ∀ cl', listing cl' s' pnum = some (d.entries ++ [⟨fname, fnum⟩]) := by
  obtain ⟨hne, ⟨hnot, -⟩ | ⟨buf, hap', ⟨hno, -⟩ | ⟨-, ha, hc, -⟩⟩⟩ :=
    create_ends (f := fun e => e) hs h
  · exact absurd ⟨d.text, hap⟩ hnot
  · exact absurd hchild hno
  · refine ⟨ha, fun cl' => ?_⟩
    obtain rfl : d.text = buf := Option.some.inj (htext.symm.trans hap'.text)
    have hadd := d.add_text (e := ⟨fname, fnum⟩) hname hslash hap.new
    rw [listing, hc, StdMap.set_of_ne _ _ hne.symm, StdMap.set_self, Option.bind_some, ← hadd,
      Directory.pairs_text]
    rfl

/-- **When `create` tells new names from existing ones, exactly.**  In every directory that `create` and
`unlink` of listed names lead to, for a client whose extent calls succeed and every non-empty name
without a slash: `create` answers `EXIST` exactly when `readdir` lists the name, and otherwise answers
`OK` and appends the entry, if and only if the number is not the directory's own and either the name is
listed or it occurs in no listed name and in no listed number and the new string fits. -/
theorem create_exact_iff {s₀ : ExtentServer} {t : List DirEvent} {es : List Dirent}
    (hs₀ : s₀.SameKeys) (hempty : s₀.contents pnum = some []) (hrun : Trace (DirStep pnum) s₀ t s)
    (hread : cl.MayRead s pnum) (hwrite : cl.MayWrite s pnum) (hchild : cl.MayWrite s fnum)
    (hlist : listing cl s pnum = some es) (hname : fname ≠ []) (hslash : slash ∉ fname) :
    CreatesExactly cl s pnum fnum fname mode es ↔
      fnum ≠ pnum ∧ (fname ∈ es.map Dirent.name ∨
        (∀ e ∈ es, ¬ fname <:+: e.name ∧ ¬ fname <:+: filename e.inum) ∧
          (render es).length + (entry fname fnum).length ≤ StdString.maxSize) := by
  have hs : s.SameKeys := hrun.invariant hs₀ (fun _ _ _ hI hstep => hstep.sameKeys hI)
  obtain ⟨d, rfl, htext⟩ := exists_directory hempty hrun hlist
  have hoccurs : (∀ e ∈ d.entries, ¬ fname <:+: e.name ∧ ¬ fname <:+: filename e.inum) ↔
      ¬ fname <:+: d.text := by
    rw [Directory.text, infix_render_iff hname hslash]
    simp [not_or]
  rw [hoccurs]
  constructor
  · rintro ⟨⟨tr, a, s', h⟩, hends⟩
    obtain ⟨hexist, hnew⟩ := hends tr a s' h
    obtain ⟨hne, hend⟩ := create_ends (f := fun e => e) hs h
    refine ⟨hne, ?_⟩
    by_cases hlisted : fname ∈ d.entries.map Dirent.name
    · exact .inl hlisted
    · obtain ⟨ha, -⟩ := hnew hlisted
      rcases hend with ⟨-, -, hok, -⟩ | ⟨buf, hap, -⟩
      · exact absurd rfl (hok _ ha)
      · obtain rfl : d.text = buf := Option.some.inj (htext.symm.trans hap.text)
        exact .inr ⟨hap.new, hap.fits⟩
  · rintro ⟨hne, hcond⟩
    obtain ⟨tr₀, a₀, t₀, -, hreturn⟩ :=
      exists_create cl fname mode default s hne
    refine ⟨⟨tr₀, a₀, t₀, hreturn⟩, fun tr a s' h => ?_⟩
    by_cases hlisted : fname ∈ d.entries.map Dirent.name
    · exact ⟨iff_of_true (create_listed hs htext hread hlisted h) hlisted,
        fun hnot => absurd hlisted hnot⟩
    · obtain ⟨hfresh, hfits⟩ := hcond.resolve_left hlisted
      obtain ⟨ha, hlist'⟩ := create_new hs htext ⟨hread, htext, hfresh, hfits, hwrite⟩ hchild hname
        hslash h
      refine ⟨iff_of_false ?_ hlisted, fun _ => ⟨ha, hlist'⟩⟩
      rw [ha]
      simp

end New

/-- The name `c` occurs nowhere in the directory. -/
theorem create_exact_letter : CreatesExactly lister oneEntry 1 7 [99] 0o644 [⟨[97, 98], 5⟩] := by
  refine (create_exact_iff (ExtentServer.sameKeys_init 0 0 0) rfl oneEntry_run oneEntry_mayRead
    oneEntry_mayWrite oneEntry_mayCreate oneEntry_listing (by decide) (by decide)).mpr ?_
  refine ⟨by decide, .inr ⟨?_, by decide⟩⟩
  intro e he
  obtain rfl := List.mem_singleton.1 he
  decide

/-- The name `a` is not listed, but it occurs in `ab`. -/
theorem create_refuses_substring :
    ¬ ∀ (pnum fnum : Inum) (s₀ s : ExtentServer) (t : List DirEvent) (cl : YfsClient) (fname : Str)
        (mode : UInt32) (es : List Dirent), s₀.SameKeys → s₀.contents pnum = some [] →
      Trace (DirStep pnum) s₀ t s → cl.MayRead s pnum → cl.MayWrite s pnum → cl.MayWrite s fnum →
      listing cl s pnum = some es → fname ≠ [] → slash ∉ fname →
      CreatesExactly cl s pnum fnum fname mode es := by
  intro hall
  have hexact := hall 1 7 _ oneEntry _ lister [97] 0o644 _ (ExtentServer.sameKeys_init 0 0 0) rfl
    oneEntry_run oneEntry_mayRead oneEntry_mayWrite oneEntry_mayCreate oneEntry_listing (by decide)
    (by decide)
  have hsolo : ((lister.create 1 7 [97] 0o644).solo serve ∅ oneEntry [default]).map (fun x => x.2.1) =
      some (.ret ⟨.EXIST, .untouched⟩) := by decide
  obtain ⟨⟨tr, o, s'⟩, hrun, rfl⟩ := Option.map_eq_some_iff.1 hsolo
  have hlisted := (hexact.2 tr _ s' (Prog.alone_of_solo _ hrun)).1.mp rfl
  exact absurd hlisted (by decide)
