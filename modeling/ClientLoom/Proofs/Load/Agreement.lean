import ClientLoom.Load
import ClientLoom.Proofs.Files.Paths
import ClientLoom.Proofs.Files.WalkOrder
import ClientLoom.Proofs.Pipeline.Stages
import ClientLoom.Proofs.Registry.VisitOrder

/-! # Directories and archives

The same files load alike from a directory and from an archive, whatever order the archive lists
them in: both loaders fail, or both give the same parts (`directory_archive_agree`).  The order of
the parts is that of a walk for the directory and that of the paths for the archive.  So the parts
come in one order exactly when no two dumps cross, which they may (`directory_archive_differ`).

Each loader selects sources among files and decodes them one by one.  The files of a directory are
met in the order of a walk (`exists_walked`), and both loaders decode the same sources
(`sources_perm`).  A part remembers the path of its file (`origin_of_decode`), so equal lists of
parts come from files in one order. -/

namespace ClientLoom

namespace Dump

variable {expr : ExprDecoder} {m m' : Module}

theorem origin_of_addDecls {place : String} {i : Nat} {ds : List DeclDoc}
    (h : addDecls expr place m i ds = .ok m') : m'.origin = m.origin := by
  induction ds generalizing m i with
  | nil => rw [Except.ok.inj h]
  | cons d ds ih =>
      rw [addDecls, bind_eq_ok_iff] at h
      obtain ⟨m₁, h₁, h⟩ := h
      rw [locate_eq_ok_iff, addDecl, bind_eq_ok_iff] at h₁
      obtain ⟨decl, -, hpush⟩ := h₁
      obtain rfl : (m.push decl).1 = m₁ := congrArg Prod.fst (settled_eq_ok_iff.mp hpush)
      have horigin : (m.push decl).1.origin = m.origin := rfl
      rw [ih h, horigin]

/-- A decoded module remembers the name of its file. -/
theorem origin_of_decode {name text : String} (h : decode name text = .ok m) :
    m.origin = name := by
  unfold decode at h
  cases hd : Yaml.Document.parse? text with
  | none =>
      rw [hd] at h
      cases h
  | some d =>
      simp only [hd, decodeDocument, decodeWithin, moduleOf, bind_eq_ok_iff] at h
      obtain ⟨f, -, attrs, -, h⟩ := h
      exact origin_of_addDecls h

end Dump

namespace Load

open FileTree (comesBefore Crosses isBelow)

variable {groups : List String} {files : List (Place × String)} {t : FileTree} {p : Place}
  {sources : List Source} {parts : List Part} {opts : Options}

/-! ### Selecting and decoding -/

/-- The source for a file, if it is a dump of an accepted group. -/
def source? (groups : List String) (f : String × Except Failure String) : Option Source :=
  if isDump f.1 then (group? groups f.1).map fun group => ⟨group, f.1, f.2⟩ else none

theorem result_select (f : String × Except Failure String) :
    (select groups f.1 f.2).result = .ok (source? groups f).toList := by
  unfold select source?
  split
  · cases group? groups f.1 with
    | none => rfl
    | some group => rfl
  · rfl

theorem result_selectAll (fs : List (String × Except Failure String)) :
    (selectAll groups fs).result = .ok (fs.filterMap (source? groups)) := by
  have hmapM : (fs.mapM fun f => (select groups f.1 f.2).result) =
      .ok (fs.map fun f => (source? groups f).toList) := by
    rw [mapM_eq_ok_iff, List.forall₂_map_right_iff, List.forall₂_same]
    exact fun f _ => result_select f
  unfold selectAll
  rw [Logged.result_bind, Logged.result_mapM, hmapM]
  show Except.ok _ = _
  rw [← List.flatMap_def, List.filterMap_eq_flatMap_toList]

/-- Sources are decoded one by one, unless the run was cancelled before the first. -/
theorem result_decodeAll_eq_ok_iff {cancelled : Bool} :
    (decodeAll cancelled sources).result = .ok parts ↔
      (sources = [] ∨ cancelled = false) ∧ sources.mapM Source.decode = .ok parts := by
  unfold decodeAll
  split
  · next hnil =>
      obtain rfl := List.isEmpty_iff.mp hnil
      rw [and_iff_right (.inl rfl)]
      rfl
  next hne =>
    have hne : sources ≠ [] := fun h => hne (List.isEmpty_iff.mpr h)
    cases cancelled with
    | true => simp [hne, Logged.fail]
    | false => simp [Logged.result_bind, Logged.debug, Logged.log, bind_eq_ok_iff]

theorem decode_eq_ok {s : Source} {part : Part} (h : s.decode = .ok part) :
    part.module.origin = s.name := by
  unfold Source.decode at h
  rw [bind_eq_ok_iff] at h
  obtain ⟨text, -, h⟩ := h
  rw [bind_eq_ok_iff] at h
  obtain ⟨m, hm, h⟩ := h
  rw [← Except.ok.inj h]
  exact Dump.origin_of_decode hm

theorem origins_of_decoded (h : sources.mapM Source.decode = .ok parts) :
    parts.map (fun part => part.module.origin) = sources.map Source.name := by
  rw [← List.forall₂_eq_eq_eq, List.forall₂_map_left_iff, List.forall₂_map_right_iff]
  exact (mapM_eq_ok_iff.mp h).flip.imp fun _ _ => decode_eq_ok

/-! ### The same files in a directory and in an archive -/

/-- Files at places within a directory: each place is a list of names, and none is another or on
the way to another. -/
structure Proper (files : List (Place × String)) : Prop where
  nonempty : ∀ f ∈ files, f.1 ≠ []
  names : ∀ f ∈ files, ∀ s ∈ f.1, SlashPath.IsName s
  apart : files.Pairwise fun f g => ¬ f.1 <+: g.1 ∧ ¬ g.1 <+: f.1

/-- A directory that holds the files and no others. -/
structure HoldsExactly (t : FileTree) (p : Place) (files : List (Place × String)) : Prop where
  directory : t.isFile p = false
  text_eq : ∀ q, isBelow p (p ++ q) = true → t.text? (p ++ q) = files.lookup q

/-- The path of a file as it is seen from the directory. -/
def pathOf (f : Place × String) : String := "/".intercalate f.1

/-- An archive that lists the files in some order, and no others. -/
def ListsExactly (a : Archive) (files : List (Place × String)) : Prop :=
  a.files.Perm (files.map fun f => (pathOf f, f.2))

/-- The file as the loaders see it. -/
def seen (f : Place × String) : String × Except Failure String := (pathOf f, .ok f.2)

/-- Whether a file is a dump of an accepted group. -/
def Accepted (groups : List String) (f : Place × String) : Prop :=
  isDump (pathOf f) = true ∧ (group? groups (pathOf f)).isSome = true

theorem accepted_iff {f : Place × String} :
    Accepted groups f ↔ (source? groups (seen f)).isSome = true := by
  unfold Accepted source? seen
  dsimp only
  split <;> simp_all

theorem Proper.perm {files' : List (Place × String)} (h : Proper files)
    (hperm : files'.Perm files) : Proper files' where
  nonempty := fun f hf => h.nonempty f (hperm.mem_iff.mp hf)
  names := fun f hf => h.names f (hperm.mem_iff.mp hf)
  apart := hperm.symm.pairwise h.apart fun h => h.symm

theorem Proper.nodup (h : Proper files) : (files.map Prod.fst).Nodup :=
  List.pairwise_map.mpr (h.apart.imp fun hfg heq => hfg.1 (by simp [heq]))

theorem Proper.clean_pathOf (h : Proper files) {f : Place × String} (hf : f ∈ files) :
    SlashPath.clean (pathOf f) = pathOf f :=
  SlashPath.clean_join_names (h.nonempty f hf) (h.names f hf)

theorem Proper.lookup_eq (h : Proper files) {f : Place × String} (hf : f ∈ files) :
    files.lookup f.1 = some f.2 := by
  obtain ⟨before, after, rfl⟩ := List.append_of_mem hf
  refine List.lookup_eq_some_iff.mpr ⟨before, after, rfl, fun g hg => ?_⟩
  have hapart := (List.pairwise_append.mp h.apart).2.2 g hg f List.mem_cons_self
  simpa using fun heq : f.1 = g.1 => hapart.2 (by simp [heq])

/-! ### Walking through the directory -/

theorem isBelow_append {q : Place} (hne : q ≠ []) (hnames : ∀ s ∈ q, SlashPath.IsName s) :
    isBelow p (p ++ q) = true := by
  have hproper : (p != p ++ q) = true := by simpa using fun h => hne h
  have hprefix : p.isPrefixOf (p ++ q) = true := List.isPrefixOf_iff_prefix.mpr ⟨q, rfl⟩
  have hinside : (FileTree.isInside (p ++ q) || !FileTree.isInside p) = true := by
    cases p with
    | nil =>
        obtain ⟨s, q, rfl⟩ := List.exists_cons_of_ne_nil hne
        have hs := hnames s List.mem_cons_self
        simp [FileTree.isInside, hs.ne_slash, hs.ne_dots]
    | cons a p =>
        show (FileTree.isInside (a :: p) || !FileTree.isInside (a :: p)) = true
        simp
  simp [isBelow, hprefix, hproper, hinside]

theorem mem_below_iff {q : Place} :
    q ∈ t.below p ↔ isBelow p (p ++ q) = true ∧ (t.text? (p ++ q)).isSome = true := by
  unfold FileTree.below FileTree.text?
  simp only [List.mem_mergeSort, List.mem_map, List.mem_filter, List.mem_eraseDups,
    List.lookup_isSome_iff, beq_iff_eq]
  constructor
  · rintro ⟨r, ⟨⟨f, hf, rfl⟩, hbelow⟩, rfl⟩
    have hprefix : p <+: f.1 := by
      rw [isBelow, Bool.and_eq_true, Bool.and_eq_true] at hbelow
      exact List.isPrefixOf_iff_prefix.mp hbelow.1.1
    rw [List.prefix_iff_eq_append.mp hprefix]
    exact ⟨hbelow, f, hf, rfl⟩
  · rintro ⟨hbelow, f, hf, heq⟩
    refine ⟨f.1, ⟨⟨f, hf, rfl⟩, heq ▸ hbelow⟩, ?_⟩
    rw [← heq, List.drop_left]

theorem nodup_below : (t.below p).Nodup := by
  unfold FileTree.below
  refine (List.mergeSort_perm _ _).nodup_iff.mpr (List.Nodup.map_on ?_ ?_)
  · intro q hq r hr hdrop
    have hprefix {q : Place} (hq : q ∈ ((t.files.map (·.1)).eraseDups.filter (isBelow p))) :
        p ++ q.drop p.length = q := by
      have hbelow := (List.mem_filter.mp hq).2
      rw [isBelow, Bool.and_eq_true, Bool.and_eq_true] at hbelow
      exact List.prefix_iff_eq_append.mp (List.isPrefixOf_iff_prefix.mp hbelow.1.1)
    rw [← hprefix hq, ← hprefix hr, hdrop]
  · exact (nodup_eraseDups _).filter _

/-- The places of the files are met in a walk. -/
theorem below_perm (hfiles : Proper files) (h : HoldsExactly t p files) :
    (t.below p).Perm (files.map Prod.fst) := by
  refine (List.perm_ext_iff_of_nodup nodup_below hfiles.nodup).mpr fun q => ?_
  rw [mem_below_iff]
  constructor
  · rintro ⟨hbelow, hsome⟩
    rw [h.text_eq q hbelow, List.lookup_isSome_iff] at hsome
    obtain ⟨f, hf, heq⟩ := hsome
    exact List.mem_map.mpr ⟨f, hf, (eq_of_beq heq).symm⟩
  · intro hq
    obtain ⟨f, hf, rfl⟩ := List.mem_map.mp hq
    have hbelow : isBelow p (p ++ f.1) = true :=
      isBelow_append (hfiles.nonempty f hf) (hfiles.names f hf)
    refine ⟨hbelow, ?_⟩
    rw [h.text_eq _ hbelow, hfiles.lookup_eq hf]
    rfl

/-- A walk meets the files in its order. -/
theorem exists_walked (hfiles : Proper files) (h : HoldsExactly t p files) :
    ∃ walked : List (Place × String), walked.Perm files ∧
      walked.Pairwise (fun f g => comesBefore f.1 g.1 = true) ∧
      filesBelow t p = walked.map seen := by
  let walked := files.mergeSort fun f g => comesBefore f.1 g.1
  have hperm : walked.Perm files := List.mergeSort_perm _ _
  have hsorted : walked.Pairwise fun f g => comesBefore f.1 g.1 = true :=
    List.pairwise_mergeSort (fun f g k => FileTree.comesBefore_trans f.1 g.1 k.1)
      (fun f g => FileTree.comesBefore_total f.1 g.1) files
  have hbelow : t.below p = walked.map Prod.fst := by
    have hbelow : (t.below p).Pairwise fun x y => comesBefore x y = true :=
      List.pairwise_mergeSort FileTree.comesBefore_trans FileTree.comesBefore_total _
    exact List.Perm.eq_of_pairwise (fun _ _ _ _ => FileTree.comesBefore_antisymm) hbelow
      (List.pairwise_map.mpr hsorted) ((below_perm hfiles h).trans (hperm.map _).symm)
  refine ⟨walked, hperm, hsorted, ?_⟩
  unfold filesBelow
  rw [hbelow, List.map_map]
  refine List.map_congr_left fun f hf => ?_
  have hmem := hperm.mem_iff.mp hf
  have htext : t.text? (p ++ f.1) = some f.2 :=
    (h.text_eq _ (isBelow_append (hfiles.nonempty f hmem) (hfiles.names f hmem))).trans
      (hfiles.lookup_eq hmem)
  simp only [Function.comp_apply, htext]
  rfl

/-! ### The sources of both loaders -/

/-- The sources among files, in the order of these. -/
def sourcesOf (groups : List String) (files : List (Place × String)) : List Source :=
  files.filterMap fun f => source? groups (seen f)

theorem name_of_source? {f : Place × String} {s : Source}
    (h : source? groups (seen f) = some s) : s.name = pathOf f := by
  unfold source? at h
  split at h
  · obtain ⟨group, -, rfl⟩ := Option.map_eq_some_iff.mp h
    rfl
  · cases h

theorem result_directory_eq_ok_iff {root : String} (opts : Options) (hroot : t.resolve root = .ok p)
    (hfiles : Proper files) (h : HoldsExactly t p files) :
    ∃ walked : List (Place × String), walked.Perm files ∧
      walked.Pairwise (fun f g => comesBefore f.1 g.1 = true) ∧
      ∀ parts, (directory t root opts).result = .ok parts ↔
        (decodeAll opts.cancelled (sourcesOf opts.groups walked)).result = .ok parts := by
  obtain ⟨walked, hperm, hsorted, hbelow⟩ := exists_walked hfiles h
  refine ⟨walked, hperm, hsorted, fun parts => ?_⟩
  unfold directory
  rw [hroot]
  simp only [h.directory, Bool.false_and, Bool.false_eq_true, if_false, Logged.result_bind,
    result_selectAll, bind_eq_ok_iff, Except.ok.injEq]
  rw [hbelow, List.filterMap_map]
  exact exists_eq_left'

theorem sourcesOf_perm {fs gs : List (Place × String)} (h : fs.Perm gs) :
    (sourcesOf groups fs).Perm (sourcesOf groups gs) := h.filterMap _

/-- The archive gives the sources of the files in the order of their names. -/
theorem result_archive_eq_ok_iff {a : Archive} (opts : Options) (hfiles : Proper files)
    (ha : ListsExactly a files) :
    ∃ listed : List Source, listed.Perm (sourcesOf opts.groups files) ∧
      listed.Pairwise (fun s s' => s.name ≤ s'.name) ∧
      ∀ parts, (archive a opts).result = .ok parts ↔
        (decodeAll opts.cancelled listed).result = .ok parts := by
  let fs : List (String × Except Failure String) :=
    a.files.map fun f => (SlashPath.clean f.1, .ok f.2)
  have hclean : ((files.map fun f => (pathOf f, f.2)).map fun f =>
      (SlashPath.clean f.1, Except.ok f.2)) = files.map seen := by
    rw [List.map_map]
    refine List.map_congr_left fun f hf => ?_
    simp only [Function.comp_apply, hfiles.clean_pathOf hf]
    rfl
  have hfs : fs.Perm (files.map seen) := hclean ▸ ha.map _
  have hsources : (fs.filterMap (source? opts.groups)).Perm (sourcesOf opts.groups files) := by
    have hseen : (files.map seen).filterMap (source? opts.groups) =
        sourcesOf opts.groups files := List.filterMap_map
    exact hseen ▸ hfs.filterMap _
  refine ⟨(fs.filterMap (source? opts.groups)).mergeSort fun s s' => decide (s.name ≤ s'.name),
    (List.mergeSort_perm _ _).trans hsources, ?_, fun parts => ?_⟩
  · have hsorted := List.pairwise_mergeSort (key_le_trans Source.name) (key_le_total Source.name)
      (fs.filterMap (source? opts.groups))
    exact hsorted.imp fun h => of_decide_eq_true h
  · unfold archive
    simp only [Logged.result_bind, result_selectAll, bind_eq_ok_iff, Except.ok.injEq]
    exact exists_eq_left'

/-! ### When the orders are the same -/

/-- No two dumps of accepted groups cross. -/
def NoneCross (groups : List String) (files : List (Place × String)) : Prop :=
  ∀ f ∈ files, ∀ g ∈ files, Accepted groups f → Accepted groups g → ¬ Crosses f.1 g.1

theorem Accepted.exists_source {f : Place × String} (h : Accepted groups f) :
    ∃ s, source? groups (seen f) = some s ∧ s.name = pathOf f := by
  obtain ⟨s, hs⟩ := Option.isSome_iff_exists.mp (accepted_iff.mp h)
  exact ⟨s, hs, name_of_source? hs⟩

/-- Of two elements one stands before the other. -/
theorem pairwise_or {α : Type} {R : α → α → Prop} {l : List α} (h : l.Pairwise R) {a b : α}
    (ha : a ∈ l) (hb : b ∈ l) (hne : a ≠ b) : R a b ∨ R b a := by
  induction h with
  | nil => cases ha
  | cons hx _ ih =>
      rcases List.mem_cons.mp ha with rfl | ha'
      · exact .inl (hx b ((List.mem_cons.mp hb).resolve_left hne.symm))
      · rcases List.mem_cons.mp hb with rfl | hb'
        · exact .inr (hx a ha')
        · exact ih ha' hb'

/-- The sources of files in the order of a walk are in the order of their names when no two of them
cross. -/
theorem sorted_sourcesOf_iff {walked : List (Place × String)} (hproper : Proper walked)
    (hsorted : walked.Pairwise fun f g => comesBefore f.1 g.1 = true) :
    (sourcesOf groups walked).Pairwise (fun s s' => s.name ≤ s'.name) ↔
      NoneCross groups walked := by
  rw [sourcesOf, List.pairwise_filterMap]
  constructor
  · intro hnames f hf g hg hfa hga hcross
    obtain ⟨hbefore, hpath⟩ := hcross.orders
    obtain ⟨s, hs, hsf⟩ := hfa.exists_source
    obtain ⟨s', hs', hsg⟩ := hga.exists_source
    have hne : f ≠ g := fun h => lt_irrefl _ (h ▸ hpath)
    rcases pairwise_or (hsorted.and hnames) hf hg hne with ⟨-, hle⟩ | ⟨hafter, -⟩
    · have hle := hle s hs s' hs'
      rw [hsf, hsg] at hle
      exact absurd hpath (not_lt_of_ge hle)
    · rw [FileTree.comesBefore_antisymm hbefore hafter] at hpath
      exact lt_irrefl _ hpath
  · intro hnone
    refine List.Pairwise.imp_of_mem ?_ (hsorted.and hproper.apart)
    rintro f g hf hg ⟨hbefore, hapart⟩ s hs s' hs'
    rw [name_of_source? hs, name_of_source? hs']
    refine le_of_not_gt fun hpath => ?_
    have hfa : Accepted groups f := accepted_iff.mpr (by simp [hs])
    have hga : Accepted groups g := accepted_iff.mpr (by simp [hs'])
    have hslash : ∀ s ∈ g.1, '/' ∉ s.toList := fun s hs => (hproper.names g hg s hs).no_slash
    exact hnone f hf g hg hfa hga
      ((FileTree.crosses_iff hslash hapart.1 hapart.2).mpr ⟨hbefore, hpath⟩)

theorem Proper.eq_of_pathOf (h : Proper files) {f g : Place × String} (hf : f ∈ files)
    (hg : g ∈ files) (heq : pathOf f = pathOf g) : f = g := by
  have hsplit {f : Place × String} (hf : f ∈ files) : Text.split (pathOf f) '/' = f.1 :=
    Text.split_intercalate (h.nonempty f hf) fun s hs => (h.names f hf s hs).no_slash
  have hplace : f.1 = g.1 := by rw [← hsplit hf, ← hsplit hg, heq]
  exact List.inj_on_of_nodup_map h.nodup hf hg hplace

/-- Sources of one name are one source. -/
theorem eq_of_name (h : Proper files) {s s' : Source} (hs : s ∈ sourcesOf groups files)
    (hs' : s' ∈ sourcesOf groups files) (hname : s.name = s'.name) : s = s' := by
  obtain ⟨f, hf, hfs⟩ := List.mem_filterMap.mp hs
  obtain ⟨g, hg, hgs⟩ := List.mem_filterMap.mp hs'
  rw [name_of_source? hfs, name_of_source? hgs] at hname
  rw [h.eq_of_pathOf hf hg hname] at hfs
  exact Option.some.inj (hfs.symm.trans hgs)

/-- The dumps among files can all be decoded. -/
def Loadable (opts : Options) (files : List (Place × String)) : Prop :=
  (sourcesOf opts.groups files = [] ∨ opts.cancelled = false) ∧
    ∀ s ∈ sourcesOf opts.groups files, ∃ part, s.decode = .ok part

theorem exists_decodeAll_iff (hperm : sources.Perm (sourcesOf opts.groups files)) :
    (∃ parts, (decodeAll opts.cancelled sources).result = .ok parts) ↔ Loadable opts files := by
  have hempty : sources = [] ↔ sourcesOf opts.groups files = [] :=
    ⟨fun h => List.nil_perm.mp (h ▸ hperm), fun h => List.perm_nil.mp (h ▸ hperm)⟩
  unfold Loadable
  simp only [result_decodeAll_eq_ok_iff, exists_and_left, exists_mapM_eq_ok_iff, hempty,
    hperm.mem_iff]

section loaders
variable {root : String} {a : Archive} {parts parts' : List Part}

theorem exists_directory_iff (hroot : t.resolve root = .ok p) (hfiles : Proper files)
    (hdir : HoldsExactly t p files) :
    (∃ parts, (directory t root opts).result = .ok parts) ↔ Loadable opts files := by
  obtain ⟨walked, hwalked, -, hdirectory⟩ :=
    result_directory_eq_ok_iff opts hroot hfiles hdir
  rw [exists_congr hdirectory]
  exact exists_decodeAll_iff (sourcesOf_perm hwalked)

theorem exists_archive_iff (hfiles : Proper files) (ha : ListsExactly a files) :
    (∃ parts, (archive a opts).result = .ok parts) ↔ Loadable opts files := by
  obtain ⟨listed, hlisted, -, harchive⟩ := result_archive_eq_ok_iff opts hfiles ha
  rw [exists_congr harchive]
  exact exists_decodeAll_iff hlisted

/-- The parts of both loaders are the same, and come in one order when no two dumps cross. -/
theorem perm_and_eq_iff (hroot : t.resolve root = .ok p) (hfiles : Proper files)
    (hdir : HoldsExactly t p files) (ha : ListsExactly a files)
    (hparts : (directory t root opts).result = .ok parts)
    (hparts' : (archive a opts).result = .ok parts') :
    parts.Perm parts' ∧ (parts = parts' ↔ NoneCross opts.groups files) := by
  obtain ⟨walked, hwalked, hsorted, hdirectory⟩ :=
    result_directory_eq_ok_iff opts hroot hfiles hdir
  obtain ⟨listed, hlisted, hnames, harchive⟩ :=
    result_archive_eq_ok_iff opts hfiles ha
  obtain ⟨-, hparts⟩ := result_decodeAll_eq_ok_iff.mp ((hdirectory parts).mp hparts)
  obtain ⟨-, hparts'⟩ := result_decodeAll_eq_ok_iff.mp ((harchive parts').mp hparts')
  have hproper := hfiles.perm hwalked
  have hperm : (sourcesOf opts.groups walked).Perm listed :=
    (sourcesOf_perm hwalked).trans hlisted.symm
  have hnone : NoneCross opts.groups walked ↔ NoneCross opts.groups files := by
    simp only [NoneCross, hwalked.mem_iff]
  rw [← hnone, ← sorted_sourcesOf_iff hproper hsorted]
  refine ⟨?_, ?_, ?_⟩
  · obtain ⟨parts₁, hparts₁, hsame⟩ := mapM_perm hperm hparts'
    rwa [Except.ok.inj (hparts.symm.trans hparts₁)]
  · rintro rfl
    have horigins := (origins_of_decoded hparts).symm.trans (origins_of_decoded hparts')
    have hmapped : (listed.map Source.name).Pairwise (· ≤ ·) := List.pairwise_map.mpr hnames
    rw [← horigins] at hmapped
    exact List.pairwise_map.mp hmapped
  · intro hsources
    have hlist : sourcesOf opts.groups walked = listed := by
      refine List.Perm.eq_of_pairwise (fun s s' hs hs' hle hge => ?_) hsources hnames hperm
      exact eq_of_name hproper hs (hperm.mem_iff.mpr hs') (le_antisymm hle hge)
    rw [hlist, hparts'] at hparts
    exact (Except.ok.inj hparts).symm

/-- A directory and an archive that hold the same files load alike, whatever order the archive lists
the files in: both fail, or both give the same parts.  The parts come in the same order exactly
when no two dumps of accepted groups cross. -/
theorem directory_archive_agree (opts : Options) (hroot : t.resolve root = .ok p)
    (hfiles : Proper files) (hdir : HoldsExactly t p files) (ha : ListsExactly a files) :
    ((∃ parts, (directory t root opts).result = .ok parts) ↔
        ∃ parts, (archive a opts).result = .ok parts) ∧
      ∀ parts parts', (directory t root opts).result = .ok parts →
        (archive a opts).result = .ok parts' →
        parts.Perm parts' ∧ (parts = parts' ↔ NoneCross opts.groups files) :=
  ⟨(exists_directory_iff hroot hfiles hdir).trans (exists_archive_iff hfiles ha).symm,
    fun _ _ => perm_and_eq_iff hroot hfiles hdir ha⟩

end loaders

/-! ### Two files that cross -/

/-- A tree with files in one directory. -/
def treeOf (p : Place) (files : List (Place × String)) : FileTree :=
  { files := files.map fun f => (p ++ f.1, f.2) }

/-- An archive of files. -/
def archiveOf (files : List (Place × String)) : Archive :=
  { files := files.map fun f => (pathOf f, f.2) }

theorem text?_treeOf (q : Place) : (treeOf p files).text? (p ++ q) = files.lookup q := by
  unfold treeOf FileTree.text?
  induction files with
  | nil => rfl
  | cons f files ih =>
      rw [List.map_cons, List.lookup_cons, List.lookup_cons, ih]
      congr 1
      simp

theorem holdsExactly_treeOf (h : Proper files) : HoldsExactly (treeOf p files) p files where
  directory := by
    have hnone : (treeOf p files).text? (p ++ []) = none := by
      rw [text?_treeOf, List.lookup_eq_none_iff]
      intro f hf
      simpa using (h.nonempty f hf).symm
    rw [List.append_nil] at hnone
    simp [FileTree.isFile, hnone]
  text_eq := fun q _ => text?_treeOf q

theorem loadable_of_all (hcancelled : opts.cancelled = false)
    (h : (sourcesOf opts.groups files).all (fun s => s.decode.toOption.isSome) = true) :
    Loadable opts files := by
  refine ⟨.inr hcancelled, fun s hs => ?_⟩
  obtain ⟨part, hpart⟩ := Option.isSome_iff_exists.mp (List.all_eq_true.mp h s hs)
  exact ⟨part, toOption_eq_some_iff.mp hpart⟩

/-- The options of a loader that accepts one group. -/
def modelsOnly : Options := { groups := ["models"] }

/-- Two dumps beside each other. -/
def neighbours : List (Place × String) :=
  [(["models", "tag.yaml"], "decls: []"), (["models", "pet.yaml"], "decls: []")]

theorem proper_neighbours : Proper neighbours := by
  refine ⟨?_, ?_, ?_⟩ <;> simp [neighbours, SlashPath.IsName]

theorem noneCross_neighbours : NoneCross modelsOnly.groups neighbours := by
  intro f hf g hg _ _ hcross
  have horders := hcross.orders
  simp only [neighbours, List.mem_cons, List.not_mem_nil, or_false] at hf hg
  revert horders
  rcases hf with rfl | rfl <;> rcases hg with rfl | rfl <;> decide +kernel

theorem directory_archive_agree_neighbours :
    Proper neighbours ∧ HoldsExactly (treeOf ["dump"] neighbours) ["dump"] neighbours ∧
      ∃ parts, (directory (treeOf ["dump"] neighbours) "dump" modelsOnly).result = .ok parts ∧
        (archive (archiveOf neighbours.reverse) modelsOnly).result = .ok parts := by
  have hroot : (treeOf ["dump"] neighbours).resolve "dump" = .ok ["dump"] := by decide +kernel
  have hdir : HoldsExactly (treeOf ["dump"] neighbours) ["dump"] neighbours :=
    holdsExactly_treeOf proper_neighbours
  have ha : ListsExactly (archiveOf neighbours.reverse) neighbours :=
    (List.reverse_perm neighbours).map fun f => (pathOf f, f.2)
  obtain ⟨hsuccess, hparts⟩ :=
    directory_archive_agree modelsOnly hroot proper_neighbours hdir ha
  have hloadable : Loadable modelsOnly neighbours := loadable_of_all rfl (by decide +kernel)
  obtain ⟨parts, hdirectory⟩ := (exists_directory_iff hroot proper_neighbours hdir).mpr hloadable
  obtain ⟨parts', harchive⟩ := hsuccess.mp ⟨parts, hdirectory⟩
  have hsame := (hparts parts parts' hdirectory harchive).2.mpr noneCross_neighbours
  exact ⟨proper_neighbours, hdir, parts, hdirectory, hsame ▸ harchive⟩

/-- A dump beside a directory whose name it goes on. -/
def crossing : List (Place × String) :=
  [(["models", "a.yaml"], "decls: []"), (["models", "a", "b.yaml"], "decls: []")]

theorem proper_crossing : Proper crossing := by
  refine ⟨?_, ?_, ?_⟩ <;> simp [crossing, SlashPath.IsName]

theorem not_noneCross_crossing : ¬ NoneCross modelsOnly.groups crossing := by
  intro hnone
  refine hnone (["models", "a", "b.yaml"], "decls: []") (by simp [crossing])
    (["models", "a.yaml"], "decls: []") (by simp [crossing]) ?_ ?_
    ⟨["models"], "a", ["b.yaml"], '.', "yaml".toList, [], rfl, by decide, by decide, rfl⟩
  · exact ⟨by decide +kernel, by decide +kernel⟩
  · exact ⟨by decide +kernel, by decide +kernel⟩

/-- The loaders give the two dumps in different orders. -/
theorem directory_archive_differ :
    ∃ parts parts', (directory (treeOf ["dump"] crossing) "dump" modelsOnly).result = .ok parts ∧
      (archive (archiveOf crossing) modelsOnly).result = .ok parts' ∧ parts ≠ parts' := by
  have hroot : (treeOf ["dump"] crossing).resolve "dump" = .ok ["dump"] := by decide +kernel
  have hdir : HoldsExactly (treeOf ["dump"] crossing) ["dump"] crossing :=
    holdsExactly_treeOf proper_crossing
  have ha : ListsExactly (archiveOf crossing) crossing := List.Perm.refl _
  have hloadable : Loadable modelsOnly crossing := loadable_of_all rfl (by decide +kernel)
  obtain ⟨parts, hdirectory⟩ := (exists_directory_iff hroot proper_crossing hdir).mpr hloadable
  obtain ⟨parts', harchive⟩ := (exists_archive_iff proper_crossing ha).mpr hloadable
  obtain ⟨-, hiff⟩ := perm_and_eq_iff hroot proper_crossing hdir ha hdirectory harchive
  exact ⟨parts, parts', hdirectory, harchive, fun h => not_noneCross_crossing (hiff.mp h)⟩

end Load
end ClientLoom
