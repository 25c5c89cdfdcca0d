/-
# The directory format

A directory holds entries in the order of their creation and is stored as the string
`name/inum/name/inum/…`.  The client never parses this string into entries before it changes it:
`create` looks for the new name as a substring, `lookup` and `unlink` take the first token that equals
the name, and `unlink` erases at the first *substring* that equals it.

`Directory` is the invariant that makes this work: no name is a substring of an earlier name or of an
earlier file number.  Under it every operation of the client on the string is the operation on the
list of entries that its name suggests.
-/
import Yfs.YfsClient

open YfsClient

/-- `later` has been added after `earlier`: its name was no substring of the string then. -/
def Dirent.Before (earlier later : Dirent) : Prop :=
  ¬ later.name <:+: earlier.name ∧ ¬ later.name <:+: filename earlier.inum

/-- The entries of a directory, in the order of their creation. -/
structure Directory where
  entries : List Dirent
  named : ∀ e ∈ entries, e.name ≠ [] ∧ slash ∉ e.name
  fresh : entries.Pairwise Dirent.Before

/-- The string of a list of entries. -/
def render (es : List Dirent) : Str :=
  es.flatMap (fun e => entry e.name e.inum)

@[simp] theorem render_nil : render [] = [] := rfl

theorem render_cons (e : Dirent) (es : List Dirent) :
    render (e :: es) = e.name ++ slash :: (filename e.inum ++ slash :: render es) := by
  simp [render, entry]

theorem render_append (es es' : List Dirent) : render (es ++ es') = render es ++ render es' :=
  List.flatMap_append

theorem render_singleton (e : Dirent) : render [e] = entry e.name e.inum := by
  simp [render]

theorem slash_notMem_filename (n : Inum) : slash ∉ filename n := by
  intro h
  have hd := StdString.isDigit_of_mem_print h
  exact absurd hd (by decide)

theorem n2i_filename (cl : YfsClient) (n : Inum) : cl.n2i (filename n) = n := by
  rw [n2i, filename, StdString.extract_print, Option.getD_some]

/-- The tokens of a list of entries. -/
def tokens (es : List Dirent) : List Str :=
  es.flatMap (fun e => [e.name, filename e.inum])

/-- **Splitting the string gives the names and numbers back.** -/
theorem split_render {es : List Dirent} (h : ∀ e ∈ es, slash ∉ e.name) :
    StdString.split slash (render es) = tokens es := by
  induction es with
  | nil => rfl
  | cons e es ih =>
    rw [render_cons, StdString.split_append_cons _ (h e (by simp)),
      StdString.split_append_cons _ (slash_notMem_filename e.inum),
      ih (fun x hx => h x (by simp [hx]))]
    rfl

/-- The loop of `readdir` gives the entries back. -/
theorem pairs_tokens (cl : YfsClient) (es : List Dirent) : cl.pairs (tokens es) = some es := by
  induction es with
  | nil => rfl
  | cons e es ih =>
    show (cl.pairs (tokens es)).map _ = _
    rw [ih, Option.map_some, n2i_filename]

/-- A name occurs in the string exactly when it occurs in a name or in a number. -/
theorem infix_render_iff {es : List Dirent} {name : Str} (hne : name ≠ []) (hs : slash ∉ name) :
    name <:+: render es ↔ ∃ e ∈ es, name <:+: e.name ∨ name <:+: filename e.inum := by
  induction es with
  | nil => simp [hne]
  | cons e es ih =>
    rw [render_cons, StdString.infix_append_cons_iff hs, StdString.infix_append_cons_iff hs, ih]
    simp [or_assoc]

namespace Directory

/-- The directory string. -/
def text (d : Directory) : Str := render d.entries

/-- **No two entries have the same name.** -/
theorem nodup_names (d : Directory) : (d.entries.map Dirent.name).Nodup := by
  rw [List.Nodup, List.pairwise_map]
  refine d.fresh.imp ?_
  intro e e' h he
  exact h.1 (by rw [he])

/-- The empty directory. -/
def empty : Directory := ⟨[], by simp, List.Pairwise.nil⟩

/-- The directory with a new last entry, whose name does not occur in the string. -/
def add (d : Directory) (e : Dirent) (hne : e.name ≠ []) (hs : slash ∉ e.name)
    (hnew : ¬ e.name <:+: d.text) : Directory where
  entries := d.entries ++ [e]
  named := by
    intro x hx
    rcases List.mem_append.1 hx with hx | hx
    · exact d.named x hx
    · obtain rfl := List.mem_singleton.1 hx
      exact ⟨hne, hs⟩
  fresh := by
    refine List.pairwise_append.2 ⟨d.fresh, List.pairwise_singleton _ _, ?_⟩
    intro x hx y hy
    obtain rfl := List.mem_singleton.1 hy
    rw [text, infix_render_iff hne hs] at hnew
    exact ⟨fun h => hnew ⟨x, hx, .inl h⟩, fun h => hnew ⟨x, hx, .inr h⟩⟩

/-- A new entry is appended to the string. -/
theorem add_text (d : Directory) {e : Dirent} (hne : e.name ≠ []) (hs : slash ∉ e.name)
    (hnew : ¬ e.name <:+: d.text) :
    (d.add e hne hs hnew).text = d.text ++ entry e.name e.inum := by
  show render (d.entries ++ [e]) = _
  rw [render_append, render_singleton]
  rfl

theorem mem_add (d : Directory) {e x : Dirent} (hne : e.name ≠ []) (hs : slash ∉ e.name)
    (hnew : ¬ e.name <:+: d.text) : x ∈ (d.add e hne hs hnew).entries ↔ x ∈ d.entries ∨ x = e := by
  simp [add]

/-- The directory without the entries called `name`. -/
def remove (d : Directory) (name : Str) : Directory where
  entries := d.entries.filter (fun e => e.name ≠ name)
  named := fun e he => d.named e (List.mem_of_mem_filter he)
  fresh := d.fresh.filter _

/-- The entries before and after a live one. -/
theorem exists_split (d : Directory) {e : Dirent} (he : e ∈ d.entries) :
    ∃ es es', d.entries = es ++ e :: es' ∧ ∀ x ∈ es, x.Before e := by
  obtain ⟨es, es', hsplit⟩ := List.append_of_mem he
  have hfresh := d.fresh
  rw [hsplit] at hfresh
  exact ⟨es, es', hsplit, fun x hx => (List.pairwise_append.1 hfresh).2.2 x hx e (by simp)⟩

/-- The entries without a live one, cut at the same place. -/
theorem remove_entries (d : Directory) {e : Dirent} {es es' : List Dirent}
    (hsplit : d.entries = es ++ e :: es') : (d.remove e.name).entries = es ++ es' := by
  have hnd := d.nodup_names
  rw [hsplit, List.map_append, List.map_cons] at hnd
  have hnot : ∀ x ∈ es ++ es', x.name ≠ e.name := by
    intro x hx hn
    have hmid := List.perm_middle.nodup_iff.1 hnd
    rw [← List.map_append] at hmid
    exact (List.nodup_cons.1 hmid).1 (hn ▸ List.mem_map_of_mem hx)
  show d.entries.filter _ = _
  rw [hsplit, List.filter_append, List.filter_cons_of_neg (by simp), ← List.filter_append,
    List.filter_eq_self]
  intro x hx
  simpa using hnot x hx

end Directory

/-! ## Searching a directory string -/

/-- The first token that equals a name, past entries that were there before it. -/
theorem after_tokens {es es' : List Dirent} {e : Dirent} (h : ∀ x ∈ es, x.Before e) :
    after e.name (tokens (es ++ e :: es')) = some (filename e.inum :: tokens es') := by
  induction es with
  | nil =>
    show (if e.name = e.name then _ else _) = _
    rw [if_pos rfl]
    rfl
  | cons x es ih =>
    obtain ⟨hname, hnum⟩ := h x (by simp)
    have hname' : x.name ≠ e.name := fun he => hname (by rw [he])
    have hnum' : filename x.inum ≠ e.name := fun he => hnum (by rw [he])
    show (if x.name = e.name then _ else if filename x.inum = e.name then _ else _) = _
    rw [if_neg hname', if_neg hnum']
    exact ih (fun y hy => h y (by simp [hy]))

/-- A name with a character that is no digit is found among the names, never among the numbers. -/
theorem exists_of_after_tokens {es : List Dirent} {fname : Str} {ts : List Str}
    (hname : ∃ c ∈ fname, StdString.isDigit c = false) (h : after fname (tokens es) = some ts) :
    ∃ e ∈ es, e.name = fname ∧ ∃ rest, ts = filename e.inum :: rest := by
  induction es with
  | nil => cases h
  | cons e es ih =>
    have hnum : filename e.inum ≠ fname := by
      rintro rfl
      obtain ⟨c, hc, hd⟩ := hname
      rw [StdString.isDigit_of_mem_print hc] at hd
      cases hd
    replace h : (if e.name = fname then some (filename e.inum :: tokens es)
        else if filename e.inum = fname then some (tokens es) else after fname (tokens es)) =
      some ts := h
    rw [if_neg hnum] at h
    split_ifs at h with he
    · exact ⟨e, by simp, he, _, (Option.some.inj h).symm⟩
    · obtain ⟨x, hx, hfound⟩ := ih h
      exact ⟨x, by simp [hx], hfound⟩

/-- The first occurrence of a name, past entries that were there before it. -/
theorem find_render {es es' : List Dirent} {e : Dirent} (hs : slash ∉ e.name)
    (h : ∀ x ∈ es, x.Before e) :
    StdString.find (render (es ++ e :: es')) e.name = some (render es).length := by
  induction es with
  | nil =>
    rw [List.nil_append, render_cons]
    exact StdString.find_eq_zero (List.prefix_append _ _)
  | cons x es ih =>
    obtain ⟨hname, hnum⟩ := h x (by simp)
    rw [List.cons_append, render_cons, StdString.find_append_cons hs hname,
      StdString.find_append_cons hs hnum, ih (fun y hy => h y (by simp [hy])), render_cons]
    simp only [Option.map_some, List.length_append, List.length_cons, Option.some.injEq]
    omega

/-- Erasing at the first occurrence removes the entry from the string. -/
theorem eraseEntry_render {es es' : List Dirent} {e : Dirent} (hs : slash ∉ e.name)
    (h : ∀ x ∈ es, x.Before e) :
    eraseEntry (render (es ++ e :: es')) e.name (filename e.inum) = some (render (es ++ es')) := by
  have hlen : (entry e.name e.inum).length = e.name.length + 1 + (filename e.inum).length + 1 := by
    simp only [entry, List.length_append, List.length_singleton]
  rw [eraseEntry, find_render hs h, Option.getD_some, ← hlen, render_append, render_append,
    ← List.singleton_append, render_append, render_singleton, StdString.erase, if_pos (by simp),
    List.take_left, ← List.append_assoc, ← List.length_append, List.drop_left]

namespace Directory

/-- **`readdir` lists the entries.** -/
theorem pairs_text (d : Directory) (cl : YfsClient) :
    cl.pairs (StdString.split slash d.text) = some d.entries := by
  rw [text, split_render (fun e he => (d.named e he).2), pairs_tokens]

/-- **The token after a live name is its number.** -/
theorem after_text (d : Directory) {e : Dirent} (he : e ∈ d.entries) :
    ∃ rest, after e.name (StdString.split slash d.text) = some (filename e.inum :: rest) := by
  obtain ⟨es, es', hsplit, hbefore⟩ := d.exists_split he
  rw [text, split_render (fun e he => (d.named e he).2), hsplit]
  exact ⟨_, after_tokens hbefore⟩

/-- A search that succeeds has found an entry, when the name is no number. -/
theorem exists_of_after_text (d : Directory) {fname : Str} {ts : List Str}
    (hname : ∃ c ∈ fname, StdString.isDigit c = false)
    (h : after fname (StdString.split slash d.text) = some ts) :
    ∃ e ∈ d.entries, e.name = fname ∧ ∃ rest, ts = filename e.inum :: rest := by
  rw [text, split_render (fun e he => (d.named e he).2)] at h
  exact exists_of_after_tokens hname h

/-- **Erasing a live name removes its entry and no other.** -/
theorem eraseEntry_text (d : Directory) {e : Dirent} (he : e ∈ d.entries) :
    eraseEntry d.text e.name (filename e.inum) = some (d.remove e.name).text := by
  obtain ⟨es, es', hsplit, hbefore⟩ := d.exists_split he
  rw [text, text, d.remove_entries hsplit, hsplit]
  exact eraseEntry_render (d.named e he).2 hbefore


/-! ## The operations on the string of a directory -/

theorem readdirIn_text (d : Directory) (cl : YfsClient) :
    cl.readdirIn d.text = done .OK (.dirents d.entries) := by
  rw [readdirIn, d.pairs_text]

theorem lookupIn_text (d : Directory) (cl : YfsClient) {e : Dirent} (he : e ∈ d.entries) :
    cl.lookupIn e.name d.text = done .OK (.fnum e.inum) := by
  obtain ⟨rest, hafter⟩ := d.after_text he
  rw [lookupIn, hafter]
  dsimp only
  rw [n2i_filename]

theorem unlinkIn_text (d : Directory) (cl : YfsClient) {pnum : Inum} {e : Dirent}
    (he : e ∈ d.entries) :
    cl.unlinkIn pnum e.name d.text =
      ec cl (.put (d.remove e.name).text) pnum (fun r =>
        if r.Is .NOACCESS then done .NOACCESS else unlinkFile cl e.inum) := by
  obtain ⟨rest, hafter⟩ := d.after_text he
  rw [unlinkIn, hafter]
  dsimp only
  rw [d.eraseEntry_text he, n2i_filename]

end Directory
