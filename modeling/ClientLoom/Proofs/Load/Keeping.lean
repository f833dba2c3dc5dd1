import ClientLoom.Config.Layers
import ClientLoom.Proofs.Files.Writing
import ClientLoom.Proofs.Load.Agreement

/-! # Loading after files were written

A run writes files and makes directories.  Loading looks at some places only: at those of the
configuration file and of the archive, or at the places of dumps below the input.  When the files at
these places are what they were (`Keeps`), the archive and the directory give the same parts
(`result_archiveFile_of_keeps`, `result_directory_of_keeps`) and so does the configuration file
(`Config.readFile_of_keeps`), with one exception: a file that nobody named and that was not there is
looked for, and a directory in its place is taken for it. -/

namespace ClientLoom

variable {t t' : FileTree} {watched : Place → Prop} {p : Place} {path text : String}

/-! ### Files -/

namespace FileTree

/-- A tree that has grown, with the watched files as they were. -/
structure Keeps (watched : Place → Prop) (t t' : FileTree) : Prop where
  grows : Grows t t'
  text_eq : ∀ p, watched p → t'.text? p = t.text? p

theorem resolve_of_grows (h : Grows t t') (hp : t.resolve path = .ok p) :
    t'.resolve path = .ok p := by
  obtain ⟨hfollows, hne, hthere⟩ := resolve_eq_ok_iff.mp hp
  exact resolve_eq_ok_iff.mpr
    ⟨follows_mono h.dirs hfollows, hne, hthere.imp (h.files p) (h.dirs p)⟩

theorem has_iff : t.has path = true ↔ ∃ p, t.resolve path = .ok p := by
  unfold has
  cases t.resolve path <;> simp [Except.isOk, Except.toBool]

theorem has_of_grows (h : Grows t t') (hp : t.has path = true) : t'.has path = true := by
  obtain ⟨p, hp⟩ := has_iff.mp hp
  exact has_iff.mpr ⟨p, resolve_of_grows h hp⟩

theorem read_eq_ok_iff :
    t.read path = .ok text ↔ ∃ p, t.resolve path = .ok p ∧ t.text? p = some text := by
  unfold read
  split
  · next hresolve => simp [hresolve]
  · next p hresolve => cases htext : t.text? p <;> simp [hresolve, htext]

theorem placeOf_of_resolve (h : t.resolve path = .ok p) : placeOf path = p :=
  placeOf_of_follows (resolve_eq_ok_iff.mp h).1

/-- A file that was read holds what it held. -/
theorem Keeps.read (h : Keeps watched t t') (hpath : watched (placeOf path))
    (hread : t.read path = .ok text) : t'.read path = .ok text := by
  obtain ⟨p, hresolve, htext⟩ := read_eq_ok_iff.mp hread
  rw [placeOf_of_resolve hresolve] at hpath
  exact read_eq_ok_iff.mpr ⟨p, resolve_of_grows h.grows hresolve, (h.text_eq p hpath).trans htext⟩

/-- A file that is read now was there. -/
theorem Keeps.isFile_of_read (h : Keeps watched t t') (hpath : watched (placeOf path))
    (hread : t'.read path = .ok text) : t.isFile (placeOf path) = true := by
  obtain ⟨p, hresolve, htext⟩ := read_eq_ok_iff.mp hread
  rw [placeOf_of_resolve hresolve] at hpath ⊢
  rw [isFile, ← h.text_eq p hpath, htext]
  rfl

/-- A name leads to a file in the directory that paths start from. -/
theorem has_of_isFile {name : String} (hname : SlashPath.IsName name)
    (h : t.isFile (placeOf name) = true) : t.has name = true := by
  have hclean : SlashPath.clean name = name := by
    have hjoin : SlashPath.clean ("/".intercalate [name]) = "/".intercalate [name] :=
      SlashPath.clean_join_names (by simp) (by simpa using hname)
    simpa using hjoin
  have hway : t.HasWayTo (placeOf name) := fun q hq hne => isDir_of_isFile hq hne h
  exact has_iff.mpr ⟨placeOf name,
    resolve_eq_ok_iff.mpr ⟨follows_of_clean hclean hway, hname.ne_empty, .inl h⟩⟩

end FileTree

/-! ### The configuration file -/

namespace Config

open FileTree (placeOf Keeps)

/-- The file that the configuration is read from. -/
def fileName (path : String) : String := if path = "" then usualFile else path

theorem readFile_eq_ok_iff {table : Toml.Table} : readFile t path = .ok table ↔
    path = "" ∧ t.has usualFile = false ∧ table = [] ∨
      (path = "" → t.has usualFile = true) ∧ ∃ text parsed, t.read (fileName path) = .ok text ∧
        Toml.parse? .strict text = some parsed ∧ loweredTable parsed = table := by
  unfold readFile
  dsimp only
  split
  · next hnone =>
      obtain ⟨hpath, hhas⟩ : path = "" ∧ t.has usualFile = false := by simpa using hnone
      simp [hpath, hhas, eq_comm]
  · next hsome =>
      have hhas : path = "" → t.has usualFile = true := by simpa using hsome
      rw [or_iff_right fun h => by simp [hhas h.1] at h, and_iff_right hhas, fileName]
      cases t.read (if path = "" then usualFile else path) with
      | error f => simp [Except.toOption]
      | ok text => cases hparse : Toml.parse? .strict text <;> simp [Except.toOption, hparse]

/-- The configuration file is read as before, unless something has come to be where it was looked
for in vain. -/
theorem readFile_of_keeps {table : Toml.Table} (h : Keeps watched t t')
    (hfile : watched (placeOf (fileName path))) (hread : readFile t path = .ok table)
    (hnone : path = "" → t'.has usualFile = true → t.has usualFile = true) :
    readFile t' path = .ok table := by
  rcases readFile_eq_ok_iff.mp hread with ⟨hpath, hhas, rfl⟩ | ⟨hhas, text, parsed, htext, hparsed⟩
  · refine readFile_eq_ok_iff.mpr (.inl ⟨hpath, ?_, rfl⟩)
    rw [Bool.eq_false_iff] at hhas ⊢
    exact fun hnew => hhas (hnone hpath hnew)
  · exact readFile_eq_ok_iff.mpr (.inr ⟨fun hpath => FileTree.has_of_grows h.grows (hhas hpath),
      text, parsed, h.read hfile htext, hparsed⟩)

/-- What has come to be where the configuration file was looked for in vain cannot be read. -/
theorem had_of_readFile {table : Toml.Table} (h : Keeps watched t t')
    (hfile : watched (placeOf (fileName path))) (hread : readFile t' path = .ok table)
    (hpath : path = "") (hhas : t'.has usualFile = true) : t.has usualFile = true := by
  subst hpath
  rcases readFile_eq_ok_iff.mp hread with ⟨-, hnone, -⟩ | ⟨-, text, parsed, htext, -⟩
  · rw [hhas] at hnone
    cases hnone
  · have hname : SlashPath.IsName usualFile := ⟨by decide, by decide, by decide, by decide⟩
    exact FileTree.has_of_isFile hname (h.isFile_of_read hfile htext)

end Config

/-! ### Dumps -/

namespace Load

open FileTree (comesBefore isBelow placeOf Keeps)

variable {groups : List String} {opts : Options} {parts : List Part}

/-- Whether a file of this name is a dump of an accepted group. -/
def accepts (groups : List String) (name : String) : Bool :=
  isDump name && (group? groups name).isSome

theorem source?_of_not_accepts {f : String × Except Failure String}
    (h : accepts groups f.1 = false) : source? groups f = none := by
  unfold accepts at h
  unfold source?
  split
  · next hdump => simpa [hdump] using h
  · rfl

theorem comesBefore_below (t : FileTree) (p : Place) :
    (t.below p).Pairwise fun x y => comesBefore x y = true :=
  List.pairwise_mergeSort FileTree.comesBefore_trans FileTree.comesBefore_total _

/-- The dumps below a place are the same in the same order. -/
theorem below_of_keeps (h : Keeps watched t t')
    (hbelow : ∀ q, isBelow p (p ++ q) = true → accepts groups ("/".intercalate q) = true →
      watched (p ++ q)) :
    (t'.below p).filter (fun q => accepts groups ("/".intercalate q)) =
      (t.below p).filter fun q => accepts groups ("/".intercalate q) := by
  have hmem : ∀ q, q ∈ (t'.below p).filter (fun q => accepts groups ("/".intercalate q)) ↔
      q ∈ (t.below p).filter fun q => accepts groups ("/".intercalate q) := by
    intro q
    rw [List.mem_filter, List.mem_filter, mem_below_iff, mem_below_iff]
    refine and_congr_left fun haccepts => and_congr_right fun hq => ?_
    rw [h.text_eq _ (hbelow q hq haccepts)]
  refine List.Perm.eq_of_pairwise (fun _ _ _ _ => FileTree.comesBefore_antisymm)
    ((comesBefore_below t' p).filter _) ((comesBefore_below t p).filter _) ?_
  exact (List.perm_ext_iff_of_nodup (nodup_below.filter _) (nodup_below.filter _)).mpr hmem

theorem filterMap_source? (t : FileTree) (p : Place) :
    (filesBelow t p).filterMap (source? groups) =
      ((t.below p).filter fun q => accepts groups ("/".intercalate q)).filterMap fun q =>
        source? groups ("/".intercalate q,
          match t.text? (p ++ q) with
          | some text => .ok text
          | none => .error (.of (.system FileTree.Obstacle.missing.text))) := by
  rw [filesBelow, List.filterMap_map, List.filterMap_filter]
  refine List.filterMap_congr fun q _ => ?_
  split
  · rfl
  · next haccepts => exact source?_of_not_accepts (Bool.eq_false_iff.mpr haccepts)

theorem sources_of_keeps (h : Keeps watched t t')
    (hbelow : ∀ q, isBelow p (p ++ q) = true → accepts groups ("/".intercalate q) = true →
      watched (p ++ q)) :
    (filesBelow t' p).filterMap (source? groups) =
      (filesBelow t p).filterMap (source? groups) := by
  rw [filterMap_source?, filterMap_source?, below_of_keeps h hbelow]
  refine List.filterMap_congr fun q hq => ?_
  obtain ⟨hmem, haccepts⟩ := List.mem_filter.mp hq
  rw [h.text_eq _ (hbelow q (mem_below_iff.mp hmem).1 haccepts)]

theorem result_directory {root : String} (hroot : t.resolve root = .ok p) :
    (directory t root opts).result =
      (decodeAll opts.cancelled ((filesBelow t p).filterMap (source? opts.groups))).result := by
  have hselect : (selectAll opts.groups (filesBelow t p) >>= decodeAll opts.cancelled).result =
      (decodeAll opts.cancelled ((filesBelow t p).filterMap (source? opts.groups))).result := by
    rw [Logged.result_bind, result_selectAll]
    rfl
  unfold directory
  rw [hroot]
  dsimp only
  split
  · rw [Logged.result_bind]
    exact hselect
  · exact hselect

/-- A directory that could be loaded gives the same parts. -/
theorem result_directory_of_keeps {root : String} (h : Keeps watched t t')
    (hbelow : ∀ q, isBelow (placeOf root) (placeOf root ++ q) = true →
      accepts opts.groups ("/".intercalate q) = true → watched (placeOf root ++ q))
    (hload : (directory t root opts).result = .ok parts) :
    (directory t' root opts).result = .ok parts := by
  cases hroot : t.resolve root with
  | error o =>
      unfold directory at hload
      rw [hroot] at hload
      cases hload
  | ok p =>
      rw [FileTree.placeOf_of_resolve hroot] at hbelow
      rw [result_directory hroot] at hload
      rw [result_directory (FileTree.resolve_of_grows h.grows hroot), sources_of_keeps h hbelow,
        hload]

/-- An archive that could be loaded gives the same parts. -/
theorem result_archiveFile_of_keeps (h : Keeps watched t t') (hpath : watched (placeOf path))
    (hload : (archiveFile t path opts).result = .ok parts) :
    (archiveFile t' path opts).result = .ok parts := by
  unfold archiveFile at hload ⊢
  rw [Logged.result_bind, Logged.result_ofExcept, bind_eq_ok_iff] at hload ⊢
  obtain ⟨text, hread, hload⟩ := hload
  exact ⟨text, locate_eq_ok_iff.mpr (h.read hpath (locate_eq_ok_iff.mp hread)), hload⟩

end Load
end ClientLoom
