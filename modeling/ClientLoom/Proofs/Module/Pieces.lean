import ClientLoom.Proofs.Module.Offers

/-! # Modules in pieces

The declarations of a module may be split over files, each of which becomes a part that pushing
its share gives (`mergePieces`).  A part is not what the file lists: its types already hold the
blocks of the file, and blocks for types of other files wait in it.  When the parts are merged,
all of this is pushed once more.

Main statement: the parts can be made and merged exactly when the whole can be pushed into one
module, that is when no name is declared both as a struct and as an enum, and then the two modules
have the same contents (`mergePieces_sameContents`).  Kinds, outlines and offers of a run depend
on the pushed declarations in ways that cannot tell the results of the pieces from the pieces
themselves (`mem_kindsOf_flatten`, `arrange_outline_flatten`, `mem_offersFor_flatten`). -/

namespace ClientLoom
namespace Module

variable {name : Ident} {origin : String} {items ds : List Decl} {m w : Module}

/-- The module that pushing declarations to an empty one gives. -/
def ofDecls (name : Ident) (origin : String) (items : List Decl) : Except Failure Module :=
  settled (({ name := name, origin := origin } : Module).pushAll items)

theorem ofDecls_eq_ok_iff :
    ofDecls name origin items = .ok m ↔
      ∃ ds, Makes items ds ∧ { name := name, origin := origin, decls := ds } = m := by
  rw [ofDecls, settled_eq_ok_iff, pushAll_eq_ok_iff]
  rfl

theorem exists_ofDecls_iff : (∃ m, ofDecls name origin items = .ok m) ↔ KindsAgree items := by
  simp only [ofDecls_eq_ok_iff, ← exists_makes_iff]
  exact ⟨fun ⟨_, ds, hds, _⟩ => ⟨ds, hds⟩, fun ⟨ds, hds⟩ => ⟨_, ds, hds, rfl⟩⟩

/-! ### The results of pieces in the place of the pieces -/

section flatten
variable {itemss dss : List (List Decl)}

theorem mem_kindsOf_flatten (h : List.Forall₂ Makes itemss dss) {k : Kind} :
    k ∈ kindsOf dss.flatten name ↔ k ∈ kindsOf itemss.flatten name := by
  induction h with
  | nil => rfl
  | cons hpiece _ ih =>
      rw [List.flatten_cons, List.flatten_cons, kindsOf_append, kindsOf_append, List.mem_append,
        List.mem_append, hpiece.mem_kindsOf_iff, ih]

theorem kindsAgree_flatten (h : List.Forall₂ Makes itemss dss) :
    KindsAgree dss.flatten ↔ KindsAgree itemss.flatten := by
  simp only [kindsAgree_iff, mem_kindsOf_flatten h]

theorem arrange_outline_flatten (h : List.Forall₂ Makes itemss dss) :
    arrange (outline dss.flatten) = arrange (outline itemss.flatten) := by
  have hpieces : outline dss.flatten = itemss.flatMap fun items => arrange (outline items) := by
    induction h with
    | nil => rfl
    | cons hpiece _ ih =>
        rw [List.flatten_cons, outline_append, ih, hpiece.outline_eq, List.flatMap_cons]
  have hwhole : outline itemss.flatten = itemss.flatMap outline := by
    rw [outline, List.map_flatten, List.flatMap_def]
    rfl
  rw [hpieces, hwhole, arrange_flatMap]

theorem mem_offersFor_flatten (h : List.Forall₂ Makes itemss dss) {x : String × Option Ident} :
    x ∈ offersFor dss.flatten name ↔ x ∈ offersFor itemss.flatten name := by
  induction h with
  | nil => rfl
  | cons hpiece _ ih =>
      rw [List.flatten_cons, List.flatten_cons, mem_offersFor_append, mem_offersFor_append,
        hpiece.mem_offersFor, ih]

end flatten

/-! ### Merging pieces -/

/-- The share of one file in the declarations of a module. -/
structure Piece where
  origin : String
  decls : List Decl

/-- The declarations of all pieces. -/
def whole (pieces : List Piece) : List Decl := pieces.flatMap Piece.decls

/-- Makes a part of every piece and merges the parts. -/
def mergePieces (name : Ident) (pieces : List Piece) : Except Failure Module := do
  let parts ← pieces.mapM fun p => ofDecls name p.origin p.decls
  merge parts

/-- What the part of a piece is. -/
structure Piece.Becomes (name : Ident) (p : Piece) (part : Module) : Prop where
  name_eq : part.name = name
  origin_eq : part.origin = p.origin
  attrs_eq : part.attrs = []
  makes : Makes p.decls part.decls

variable {pieces : List Piece} {parts : List Module}

theorem becomes_iff {p : Piece} {part : Module} :
    ofDecls name p.origin p.decls = .ok part ↔ p.Becomes name part := by
  rw [ofDecls_eq_ok_iff]
  constructor
  · rintro ⟨ds, hds, rfl⟩
    exact ⟨rfl, rfl, rfl, hds⟩
  · rintro ⟨rfl, horigin, hattrs, hmakes⟩
    exact ⟨part.decls, hmakes, by rw [← horigin, ← hattrs]⟩

theorem origins_of_becomes (h : List.Forall₂ (Piece.Becomes name) pieces parts) :
    parts.map Module.origin = pieces.map Piece.origin := by
  induction h with
  | nil => rfl
  | cons hpiece _ ih => rw [List.map_cons, List.map_cons, hpiece.origin_eq, ih]

theorem names_of_becomes (h : List.Forall₂ (Piece.Becomes name) pieces parts) :
    ∀ p ∈ parts, p.name = name := by
  induction h with
  | nil => simp
  | cons hpiece _ ih => exact List.forall_mem_cons.mpr ⟨hpiece.name_eq, ih⟩

/-- Merging pieces pushes what became of them in the order of the pieces. -/
theorem mergePieces_eq_ok_iff (hne : pieces ≠ [])
    (horigins : pieces.Pairwise fun p q => Text.rank p.origin < Text.rank q.origin) :
    mergePieces name pieces = .ok m ↔
      ∃ parts, List.Forall₂ (Piece.Becomes name) pieces parts ∧
        ∃ ds, Makes (parts.map Module.decls).flatten ds ∧
          { name := name
            origin := soleOrigin parts
            attrs := parts.flatMap Module.attrs
            decls := ds } = m := by
  unfold mergePieces
  rw [bind_eq_ok_iff]
  refine exists_congr fun parts => ?_
  simp only [mapM_eq_ok_iff, becomes_iff]
  refine and_congr_right fun h => ?_
  have hne' : parts ≠ [] := by
    rintro rfl
    exact hne (List.forall₂_nil_right_iff.mp h)
  have hparts : parts.Pairwise fun p q => Text.rank p.origin < Text.rank q.origin := by
    rw [← List.pairwise_map (f := Module.origin) (R := fun s t => Text.rank s < Text.rank t),
      origins_of_becomes h]
    exact List.pairwise_map.mpr horigins
  rw [merge_eq_ok_iff hne' (names_of_becomes h), mergeSort_of_origins hparts, List.flatMap_def]

theorem makes_of_becomes (h : List.Forall₂ (Piece.Becomes name) pieces parts) :
    List.Forall₂ Makes (pieces.map Piece.decls) (parts.map Module.decls) := by
  rw [List.forall₂_map_left_iff, List.forall₂_map_right_iff]
  exact h.imp fun _ _ hpiece => hpiece.makes

/-- Pieces can be merged when the kinds of all their types agree. -/
theorem exists_mergePieces_iff (hne : pieces ≠ [])
    (horigins : pieces.Pairwise fun p q => Text.rank p.origin < Text.rank q.origin) :
    (∃ m, mergePieces name pieces = .ok m) ↔ KindsAgree (whole pieces) := by
  simp only [mergePieces_eq_ok_iff hne horigins]
  constructor
  · rintro ⟨_, parts, hparts, ds, hds, -⟩
    exact (kindsAgree_flatten (makes_of_becomes hparts)).mp (exists_makes_iff.mp ⟨ds, hds⟩)
  · intro hagree
    -- each piece can be pushed, since it is a part of the whole
    have hpieces : ∀ p ∈ pieces, ∃ part, ofDecls name p.origin p.decls = .ok part := by
      intro p hp
      exact exists_ofDecls_iff.mpr
        (hagree.sublist (List.sublist_flatten_of_mem (List.mem_map_of_mem hp)))
    obtain ⟨parts, hparts⟩ := exists_mapM_eq_ok_iff.mpr hpieces
    simp only [mapM_eq_ok_iff, becomes_iff] at hparts
    obtain ⟨ds, hds⟩ :=
      exists_makes_iff.mpr ((kindsAgree_flatten (makes_of_becomes hparts)).mpr hagree)
    exact ⟨_, parts, hparts, ds, hds, rfl⟩

/-! ### Contents -/

/-- Two modules with the same contents.  What they may differ in is the order of the blocks of a
type and of the functions in a block. -/
structure SameContents (m w : Module) : Prop where
  /-- the same imports in the same order -/
  uses : m.decls.filterMap Decl.use? = w.decls.filterMap Decl.use?
  /-- the same declarations in the same order, with all that they hold but impl blocks and their
  functions: types with their visibility, attributes and fields or variants -/
  outline : outline m.decls = outline w.decls
  freeFuncs : m.freeFuncs = w.freeFuncs
  /-- blocks for the same traits for every type, declared or waited for -/
  traits : ∀ name key, key ∈ (blocksFor m.decls name).map Impl.traitKey ↔
    key ∈ (blocksFor w.decls name).map Impl.traitKey
  /-- functions of the same names for every type and trait -/
  functions : ∀ name key fn, Impl.HasFn (blocksFor m.decls name) key fn ↔
    Impl.HasFn (blocksFor w.decls name) key fn

/-- Modules with the same outline whose types are offered the same have the same contents. -/
theorem sameContents_of_outline (houtline : outline m.decls = outline w.decls)
    (hoffers : ∀ name x, x ∈ Impl.allOffers (blocksFor m.decls name) ↔
      x ∈ Impl.allOffers (blocksFor w.decls name)) : SameContents m w where
  uses := by
    rw [← filterMap_outline Decl.use?_bare, houtline, filterMap_outline Decl.use?_bare]
  outline := houtline
  freeFuncs := by
    have hbare : ∀ d : Decl, d.bare.func? = d.func? := fun d => by cases d <;> rfl
    unfold freeFuncs
    rw [← filterMap_outline hbare, houtline, filterMap_outline hbare]
  traits := fun name key => by
    rw [Impl.mem_traitKeys_iff, Impl.mem_traitKeys_iff, hoffers]
  functions := fun name key fn => by
    rw [Impl.hasFn_iff, Impl.hasFn_iff, hoffers]

/-- Splitting a module over files does not change what it contains.  Pieces from files of
increasing origins can be made into parts and merged exactly when the whole can be pushed into one
module, which is when no name is declared both as a struct and as an enum; then both modules have
the same contents. -/
theorem mergePieces_sameContents (name : Ident) (origin : String) (pieces : List Piece)
    (hne : pieces ≠ [])
    (horigins : pieces.Pairwise fun p q => Text.rank p.origin < Text.rank q.origin) :
    ((∃ m, mergePieces name pieces = .ok m) ↔
        ∃ w, ofDecls name origin (whole pieces) = .ok w) ∧
      ((∃ w, ofDecls name origin (whole pieces) = .ok w) ↔ KindsAgree (whole pieces)) ∧
      ∀ m w, mergePieces name pieces = .ok m → ofDecls name origin (whole pieces) = .ok w →
        SameContents m w := by
  have hwhole : (∃ w, ofDecls name origin (whole pieces) = .ok w) ↔ KindsAgree (whole pieces) :=
    exists_ofDecls_iff
  refine ⟨(exists_mergePieces_iff hne horigins).trans hwhole.symm, hwhole, ?_⟩
  intro m w hm hw
  obtain ⟨parts, hparts, ds, hds, rfl⟩ := (mergePieces_eq_ok_iff hne horigins).mp hm
  obtain ⟨es, hes, rfl⟩ := ofDecls_eq_ok_iff.mp hw
  have hmakes := makes_of_becomes hparts
  refine sameContents_of_outline ?_ fun n x => ?_
  · calc outline ds = arrange (outline (parts.map Module.decls).flatten) := hds.outline_eq
      _ = arrange (outline (whole pieces)) := arrange_outline_flatten hmakes
      _ = outline es := hes.outline_eq.symm
  · rw [hds.mem_allOffers_blocksFor, hes.mem_allOffers_blocksFor]
    exact mem_offersFor_flatten hmakes

/-- A type whose blocks come before it and after it, in three files. -/
def petPieces : List Piece :=
  [{ origin := "a.yaml"
     decls := [.impl { self := "Pet", fns := [{ name := "find" }] },
       .func { name := "ping" }] },
    { origin := "b.yaml"
      decls := [.use { path := .of "std" },
        .impl { self := "Pet", fns := [{ name := "find" }, { name := "sell" }] },
        .struct { name := "Pet", pub := true }] },
    { origin := "c.yaml"
      decls := [.impl { self := "Pet", trait := some (.of "Clone"), fns := [{ name := "clone" }] },
        .struct { name := "Pet" }, .enum { name := "Size" }] }]

theorem mergePieces_sameContents_pet :
    petPieces ≠ [] ∧ petPieces.Pairwise (fun p q => Text.rank p.origin < Text.rank q.origin) ∧
      ∃ m w, mergePieces "pet" petPieces = .ok m ∧
        ofDecls "pet" "" (whole petPieces) = .ok w ∧ SameContents m w := by
  have hne : petPieces ≠ [] := List.cons_ne_nil _ _
  have horigins : petPieces.Pairwise fun p q => Text.rank p.origin < Text.rank q.origin := by
    decide +kernel
  obtain ⟨hsame, hwhole, hcontents⟩ := mergePieces_sameContents "pet" "" petPieces hne horigins
  have hagree : KindsAgree (whole petPieces) := by
    intro s e hs he
    simp [whole, petPieces] at hs he
    rcases hs with rfl | rfl <;> simp [he]
  obtain ⟨w, hw⟩ := hwhole.mpr hagree
  obtain ⟨m, hm⟩ := hsame.mpr ⟨w, hw⟩
  exact ⟨hne, horigins, m, w, hm, hw, hcontents m w hm hw⟩

end Module
end ClientLoom
