import ClientLoom.Proofs.Module.Pushing

/-! # Outlines of modules

The outline of declarations leaves out what impl blocks hold: the blocks of types and the functions
of waiting blocks (`Decl.bare`).  A push changes the outline in a simple way, which does not depend
on what was left out (`outline_pushDecl`): a declaration takes up a slot or finds it taken, and a
new type sends away the blocks that waited for it.

Hence the outline of a run has a closed form (`Makes.outline_eq`): the first imports, then the first
of all other declarations, without the blocks whose type is declared anywhere (`arrange`).
Arranging pieces of a sequence before the whole changes nothing (`arrange_flatMap`).  The outline
of a run is tidy whatever was pushed (`Makes.tidy_outline`), and of the types of one name the run
keeps the first (`Makes.map_bare_typeDecl?`). -/

namespace ClientLoom

namespace Decl

/-- A declaration without what impl blocks hold: a type without its blocks, a block without its
functions. -/
def bare : Decl → Decl
  | .struct s => .struct { s with impls := [] }
  | .enum e => .enum { e with impls := [] }
  | .impl i => .impl { i with fns := [] }
  | d => d

@[simp] theorem bare_bare (d : Decl) : d.bare.bare = d.bare := by cases d <;> rfl

@[simp] theorem typeName?_bare (d : Decl) : d.bare.typeName? = d.typeName? := by cases d <;> rfl

@[simp] theorem use?_bare (d : Decl) : d.bare.use? = d.use? := by cases d <;> rfl

@[simp] theorem isUse_bare (d : Decl) : d.bare.isUse = d.isUse := by cases d <;> rfl

@[simp] theorem waitKey?_bare (d : Decl) : d.bare.waitKey? = d.waitKey? := by cases d <;> rfl

@[simp] theorem kind_bare (d : Decl) : d.bare.kind = d.kind := by cases d <;> rfl

@[simp] theorem impls_bare (d : Decl) : d.bare.impls = [] := by cases d <;> rfl

theorem bare_mapImpls (d : Decl) (f : List Impl → List Impl) : (d.mapImpls f).bare = d.bare := by
  cases d <;> rfl

/-- A declaration can make room for its bare form. -/
theorem keeps_bare (d : Decl) : d.Keeps d.bare where
  use := use?_bare d
  typeName := typeName?_bare d
  waitKey := waitKey?_bare d
  traits := fun _ => by simp [TraitsDistinct]

end Decl

namespace Module

/-- The outline of declarations. -/
def outline (ds : List Decl) : List Decl := ds.map Decl.bare

variable {ds es items : List Decl} {d : Decl} {name : Ident}

theorem filterMap_outline {α : Type} {f : Decl → Option α} (hf : ∀ d, f d.bare = f d) :
    (outline ds).filterMap f = ds.filterMap f := by
  rw [outline, List.filterMap_map]
  exact congrArg (fun g => ds.filterMap g) (funext hf)

/-- The names of the types among declarations. -/
def typeNames (ds : List Decl) : List Ident := ds.filterMap Decl.typeName?

@[simp] theorem typeNames_append : typeNames (ds ++ es) = typeNames ds ++ typeNames es :=
  List.filterMap_append

@[simp] theorem typeNames_outline : typeNames (outline ds) = typeNames ds := by
  simp [typeNames, outline]

theorem isSome_typeDecl? : (typeDecl? ds name).isSome = true ↔ name ∈ typeNames ds := by
  rw [← Option.ne_none_iff_isSome, Ne, typeDecl?_eq_none_iff, not_not, typeNames]

theorem any_waitsLike {i : Impl} :
    ds.any (waitsLike i) = true ↔ (i.self, i.traitKey) ∈ ds.filterMap Decl.waitKey? := by
  rw [List.any_eq_true, mem_waitKeys]
  constructor
  · rintro ⟨d, hd, hw⟩
    cases d with
    | impl j => exact ⟨j, hd, by simpa [waitsLike] using hw⟩
    | _ => cases hw
  · rintro ⟨j, hj, hkey⟩
    obtain ⟨hself, htrait⟩ := Prod.mk.inj hkey
    exact ⟨.impl j, hj, by simp [waitsLike, hself, htrait]⟩

/-! ### Pushing to an outline -/

/-- The declarations that do not wait for the type called `name`. -/
def notWaiting (name : Ident) (ds : List Decl) : List Decl :=
  ds.filter fun d => (waiting? name d).isNone

/-- How a push changes an outline. -/
def place (ds : List Decl) (d : Decl) : List Decl :=
  match d with
  | .use u => if hasUse u ds then ds else insertUse u ds
  | .struct s =>
      if (typeDecl? ds s.name).isSome then ds else notWaiting s.name ds ++ [.struct s]
  | .enum e => if (typeDecl? ds e.name).isSome then ds else notWaiting e.name ds ++ [.enum e]
  | .impl i =>
      if (typeDecl? ds i.self).isSome || ds.any (waitsLike i) then ds else ds ++ [.impl i]
  | .func f => ds ++ [.func f]
  | .verbatim text => ds ++ [.verbatim text]

theorem place_of_typeName? (h : d.typeName? = some name) :
    place ds d =
      if (typeDecl? ds name).isSome then ds else notWaiting name ds ++ [d] := by
  cases d with
  | struct s => rw [← Option.some.inj h]; rfl
  | enum e => rw [← Option.some.inj h]; rfl
  | _ => cases h

theorem outline_append : outline (ds ++ es) = outline ds ++ outline es := List.map_append

theorem outline_modifyFirst {p : Decl → Bool} {f : Decl → Decl} (h : ∀ d, (f d).bare = d.bare) :
    outline (modifyFirst p f ds) = outline ds :=
  map_eq_of_forall₂
    (forall₂_modifyFirst (R := fun d e => e.bare = d.bare) (fun _ => rfl) (fun d _ => h d) ds)
    fun _ _ h => h

theorem outline_attachTo (blocks : List Impl) :
    outline (attachTo ds name blocks) = outline ds :=
  outline_modifyFirst fun d => d.bare_mapImpls _

theorem outline_notWaiting : outline (notWaiting name ds) = notWaiting name (outline ds) := by
  unfold outline notWaiting
  rw [List.filter_map]
  congr 2
  funext d
  cases d with
  | impl i => simp only [waiting?, Decl.bare, Function.comp_apply]; split <;> rfl
  | _ => rfl

theorem outline_insertUse (u : Use) : outline (insertUse u ds) = insertUse u (outline ds) := by
  unfold outline
  induction ds with
  | nil => rfl
  | cons d ds ih =>
      rw [List.map_cons]
      unfold insertUse
      rw [Decl.isUse_bare, List.any_map]
      simp only [Function.comp_def, Decl.isUse_bare]
      split
      · rw [List.map_cons, ih]
      · rfl

theorem hasUse_outline (u : Use) : hasUse u (outline ds) = hasUse u ds := by
  rw [Bool.eq_iff_iff, hasUse_iff, hasUse_iff, outline, List.filterMap_map]
  simp

theorem isSome_typeDecl?_outline :
    (typeDecl? (outline ds) name).isSome = (typeDecl? ds name).isSome := by
  rw [Bool.eq_iff_iff, isSome_typeDecl?, isSome_typeDecl?, typeNames_outline]

theorem any_waitsLike_outline (i : Impl) :
    (outline ds).any (waitsLike { i with fns := [] }) = ds.any (waitsLike i) := by
  rw [Bool.eq_iff_iff, any_waitsLike, any_waitsLike, outline, List.filterMap_map]
  simp [Impl.traitKey]

theorem bare_absorb (i other : Impl) :
    Decl.bare (.impl (i.absorb other)) = Decl.bare (.impl i) := by
  have hattrs : (i.absorb other).attrs = i.attrs := by
    unfold Impl.absorb
    induction other.fns generalizing i with
    | nil => rfl
    | cons f fs ih =>
        rw [List.foldl_cons, ih]
        unfold Impl.addFn
        split <;> rfl
  simp only [Decl.bare, Impl.absorb_self, Impl.absorb_trait, hattrs]

theorem outline_pushImpl (i : Impl) :
    outline (pushImpl ds i) = place (outline ds) (Decl.bare (.impl i)) := by
  simp only [Decl.bare, place, isSome_typeDecl?_outline, any_waitsLike_outline, pushImpl]
  by_cases hdecl : (typeDecl? ds i.self).isSome = true
  · rw [if_pos hdecl, outline_attachTo, hdecl]
    rfl
  by_cases hlike : ds.any (waitsLike i) = true
  · rw [if_neg hdecl, if_pos hlike, hlike, Bool.or_true, if_pos rfl]
    refine outline_modifyFirst fun d => ?_
    cases d with
    | impl j => exact bare_absorb j i
    | _ => rfl
  · have hno : ((typeDecl? ds i.self).isSome || ds.any (waitsLike i)) = false := by
      simp [hdecl, hlike]
    rw [if_neg hdecl, if_neg hlike, hno, outline_append]
    rfl

/-- The outline after a push depends on the outline before it and on the bare declaration. -/
theorem outline_pushDecl (h : pushDecl ds d = (es, .ok ())) :
    outline es = place (outline ds) d.bare := by
  cases pushed_of_pushDecl h with
  | @useAgain u hu =>
      have hknown : hasUse u (outline ds) = true := (hasUse_outline u).trans hu
      exact (if_pos hknown).symm
  | @useNew u hu =>
      have hunknown : ¬ hasUse u (outline ds) = true := by simp [hasUse_outline, hu]
      exact (outline_insertUse _).trans (if_neg hunknown).symm
  | typeNew hd hnew =>
      rw [place_of_typeName? (d.typeName?_bare.trans hd), isSome_typeDecl?_outline, hnew,
        appendType, outline_append, ← notWaiting, outline_notWaiting]
      simp [outline, Decl.bare_mapImpls]
  | typeAgain hd hold _ =>
      rw [place_of_typeName? (d.typeName?_bare.trans hd), isSome_typeDecl?_outline, hold,
        outline_attachTo]
      rfl
  | impl i => exact outline_pushImpl i
  | func _ | verbatim _ => exact outline_append

end Module

/-! ### Slots and first declarations -/

/-- What at most one declaration of a module takes up. -/
inductive Decl.Slot where
  | use (u : Use)
  | type (name : Ident)
  | waiter (self : Ident) (key : String)
  deriving DecidableEq

/-- The slot that a declaration takes up; functions and items kept as text take up none. -/
def Decl.slot? : Decl → Option Slot
  | .struct s => some (.type s.name)
  | .enum e => some (.type e.name)
  | .func _ => none
  | .impl i => some (.waiter i.self i.traitKey)
  | .use u => some (.use u)
  | .verbatim _ => none

namespace Module

variable {ds es items : List Decl} {d : Decl} {name : Ident} {p : Decl → Bool}

/-- The slots that declarations take up. -/
def slots (ds : List Decl) : List Decl.Slot := ds.filterMap Decl.slot?

/-- Appends a declaration unless its slot is taken. -/
def addFirst (ds : List Decl) (d : Decl) : List Decl :=
  if ∃ s ∈ slots ds, d.slot? = some s then ds else ds ++ [d]

/-- The first declaration for each slot, and all those that take up none. -/
def firsts (ds : List Decl) : List Decl := ds.foldl addFirst []

theorem mem_slots {s : Decl.Slot} : s ∈ slots ds ↔ ∃ d ∈ ds, d.slot? = some s :=
  List.mem_filterMap

theorem slots_append : slots (ds ++ es) = slots ds ++ slots es := List.filterMap_append

theorem slots_singleton : slots [d] = d.slot?.toList := by
  cases h : d.slot? <;> simp [slots, h]

theorem addFirst_of_taken {s : Decl.Slot} (hd : d.slot? = some s) (hs : s ∈ slots ds) :
    addFirst ds d = ds :=
  if_pos ⟨s, hs, hd⟩

theorem addFirst_of_free (h : ∀ s, d.slot? = some s → s ∉ slots ds) :
    addFirst ds d = ds ++ [d] :=
  if_neg fun ⟨s, hs, hd⟩ => h s hd hs

theorem mem_slots_addFirst {s : Decl.Slot} :
    s ∈ slots (addFirst ds d) ↔ s ∈ slots ds ∨ d.slot? = some s := by
  unfold addFirst
  split
  · next h =>
      obtain ⟨t, ht, hd⟩ := h
      refine (or_iff_left_of_imp fun hs => ?_).symm
      obtain rfl := Option.some.inj (hd.symm.trans hs)
      exact ht
  · rw [slots_append, slots_singleton, List.mem_append, Option.mem_toList]

theorem firsts_concat : firsts (ds ++ [d]) = addFirst (firsts ds) d := by
  rw [firsts, List.foldl_append]
  rfl

theorem mem_slots_firsts {s : Decl.Slot} : s ∈ slots (firsts ds) ↔ s ∈ slots ds := by
  induction ds using List.reverseRecOn with
  | nil => exact Iff.rfl
  | append_singleton ds d ih =>
      rw [firsts_concat, mem_slots_addFirst, ih, slots_append, slots_singleton, List.mem_append,
        Option.mem_toList]

theorem mem_slots_foldl_addFirst {s : Decl.Slot} (h : s ∈ slots es) :
    s ∈ slots (es.foldl addFirst ds) := by
  induction es using List.reverseRecOn with
  | nil => cases h
  | append_singleton es d ih =>
      rw [List.foldl_append]
      refine mem_slots_addFirst.mpr ?_
      rw [slots_append, slots_singleton, List.mem_append, Option.mem_toList] at h
      exact h.imp ih id

theorem firsts_sublist (ds : List Decl) : (firsts ds).Sublist ds := by
  induction ds using List.reverseRecOn with
  | nil => exact .slnil
  | append_singleton ds d ih =>
      rw [firsts_concat, addFirst]
      split
      · exact ih.trans (List.sublist_append_left _ _)
      · exact ih.append_right [d]

theorem firsts_subset : firsts ds ⊆ ds := (firsts_sublist ds).subset

/-- What takes up no slot is first wherever it stands. -/
theorem filterMap_firsts {α : Type} {f : Decl → Option α}
    (hf : ∀ d, d.slot?.isSome → f d = none) (ds : List Decl) :
    (firsts ds).filterMap f = ds.filterMap f := by
  induction ds using List.reverseRecOn with
  | nil => rfl
  | append_singleton ds d ih =>
      rw [firsts_concat, addFirst, List.filterMap_append, ← ih]
      split
      · next h =>
          obtain ⟨s, -, hd⟩ := h
          rw [List.filterMap_cons_none (hf d (by rw [hd]; rfl)), List.filterMap_nil,
            List.append_nil]
      · exact List.filterMap_append

/-- What is not first among the declarations that are added is not first after more. -/
theorem foldl_addFirst_firsts : (firsts es).foldl addFirst ds = es.foldl addFirst ds := by
  induction es using List.reverseRecOn with
  | nil => rfl
  | append_singleton es d ih =>
      rw [firsts_concat, List.foldl_append, List.foldl_cons, List.foldl_nil]
      by_cases h : ∃ s ∈ slots (firsts es), d.slot? = some s
      · obtain ⟨s, hs, hd⟩ := h
        rw [addFirst_of_taken hd hs, ih,
          addFirst_of_taken hd (mem_slots_foldl_addFirst (mem_slots_firsts.mp hs))]
      · rw [addFirst, if_neg h, List.foldl_append, ih]
        rfl

/-- The first declarations of pieces are first before the first of all. -/
theorem firsts_flatMap {α : Type} (f : α → List Decl) (xs : List α) :
    firsts (xs.flatMap fun x => firsts (f x)) = firsts (xs.flatMap f) := by
  have hfold : ∀ ds, (xs.flatMap fun x => firsts (f x)).foldl addFirst ds =
      (xs.flatMap f).foldl addFirst ds := by
    induction xs with
    | nil => exact fun _ => rfl
    | cons x xs ih =>
        intro ds
        rw [List.flatMap_cons, List.flatMap_cons, List.foldl_append, List.foldl_append,
          foldl_addFirst_firsts, ih]
  exact hfold []

/-- A property that the slot decides. -/
def RespectsSlots (p : Decl → Bool) : Prop := ∃ q : Option Decl.Slot → Bool, ∀ d, p d = q d.slot?

theorem RespectsSlots.eq_of_slot? (hp : RespectsSlots p) {e : Decl} (h : d.slot? = e.slot?) :
    p d = p e := by
  obtain ⟨q, hq⟩ := hp
  rw [hq, hq, h]

theorem filter_firsts (hp : RespectsSlots p) : (firsts ds).filter p = firsts (ds.filter p) := by
  induction ds using List.reverseRecOn with
  | nil => rfl
  | append_singleton ds d ih =>
      rw [firsts_concat, List.filter_append]
      by_cases hpd : p d = true
      · rw [List.filter_cons_of_pos hpd, List.filter_nil, firsts_concat, ← ih]
        by_cases h : ∃ s ∈ slots (firsts ds), d.slot? = some s
        · obtain ⟨s, hs, hd⟩ := h
          obtain ⟨e, he, hes⟩ := mem_slots.mp hs
          have hpe : p e = true := (hp.eq_of_slot? (hes.trans hd.symm)).trans hpd
          have hs' : s ∈ slots ((firsts ds).filter p) :=
            mem_slots.mpr ⟨e, List.mem_filter.mpr ⟨he, hpe⟩, hes⟩
          rw [addFirst_of_taken hd hs, addFirst_of_taken hd hs']
        · have h' : ∀ s, d.slot? = some s → s ∉ slots ((firsts ds).filter p) := by
            intro s hd hs
            obtain ⟨e, he, hes⟩ := mem_slots.mp hs
            exact h ⟨s, mem_slots.mpr ⟨e, List.mem_of_mem_filter he, hes⟩, hd⟩
          rw [addFirst_of_free h', addFirst, if_neg h, List.filter_append,
            List.filter_cons_of_pos hpd, List.filter_nil]
      · rw [List.filter_cons_of_neg hpd, List.filter_nil, List.append_nil, ← ih, addFirst]
        split
        · rfl
        · rw [List.filter_append, List.filter_cons_of_neg hpd, List.filter_nil, List.append_nil]

/-! ### The closed form -/

/-- Whether a declaration stands behind the imports when the named types are declared: an import
does not, and neither does a block for one of the types. -/
def stands (names : List Ident) : Decl → Bool
  | .use _ => false
  | .impl i => !names.contains i.self
  | _ => true

/-- Declarations in the order in which a module holds them: the first imports, then the first of
all other declarations, without the blocks whose type is among them. -/
def arrange (ds : List Decl) : List Decl :=
  firsts (ds.filter Decl.isUse) ++ firsts (ds.filter (stands (typeNames ds)))

theorem eq_use_of_slot? {u : Use} (h : d.slot? = some (.use u)) : d = .use u := by
  cases d with
  | use v => rw [Decl.Slot.use.inj (Option.some.inj h)]
  | _ => cases h

theorem slot?_ne_waiter_of_isUse {self : Ident} {key : String} (h : d.isUse = true) :
    d.slot? ≠ some (.waiter self key) := by
  cases d with
  | use u => exact fun hs => by cases hs
  | _ => cases h

theorem slot?_of_typeName? (h : d.typeName? = some name) : d.slot? = some (.type name) := by
  cases d with
  | struct s => exact congrArg (some ∘ Decl.Slot.type) (Option.some.inj h)
  | enum e => exact congrArg (some ∘ Decl.Slot.type) (Option.some.inj h)
  | _ => cases h

theorem stands_of_slot? (names : List Ident) (h : d.slot? = some (.type name)) :
    stands names d = true := by
  cases d with
  | use u => cases h
  | impl i => cases h
  | _ => rfl

theorem isUse_of_slot? (h : d.slot? = some (.type name)) : d.isUse = false := by
  cases d with
  | use u => cases h
  | _ => rfl

theorem mem_typeNames : name ∈ typeNames ds ↔ .type name ∈ slots ds := by
  unfold typeNames
  rw [List.mem_filterMap, mem_slots]
  refine exists_congr fun d => and_congr_right fun _ => ?_
  cases d <;> simp [Decl.typeName?, Decl.slot?]

theorem respectsSlots_stands (names : List Ident) : RespectsSlots (stands names) :=
  ⟨fun s => s.all fun
    | .use _ => false
    | .type _ => true
    | .waiter self _ => !names.contains self,
    fun d => by cases d <;> rfl⟩

theorem respectsSlots_notWaiting (name : Ident) :
    RespectsSlots fun d => (waiting? name d).isNone :=
  ⟨fun s => s.all fun
    | .use _ => true
    | .type _ => true
    | .waiter self _ => !self == name,
    fun d => by
      cases d with
      | impl i => by_cases h : i.self = name <;> simp [waiting?, Decl.slot?, h]
      | _ => rfl⟩

/-- Which blocks stand depends on which types there are only. -/
theorem stands_congr {names names' : List Ident} (h : ∀ n, n ∈ names ↔ n ∈ names') :
    stands names = stands names' := by
  funext d
  cases d with
  | impl i => simp only [stands, List.contains_eq_mem, h]
  | _ => rfl

theorem filter_stands_filter_stands {names names' : List Ident} (h : names ⊆ names') :
    (ds.filter (stands names)).filter (stands names') = ds.filter (stands names') := by
  rw [List.filter_filter]
  congr 1
  funext d
  cases d with
  | impl i =>
      by_cases hi : i.self ∈ names'
      · simp [stands, hi]
      · have hi' : i.self ∉ names := fun hn => hi (h hn)
        simp [stands, hi, hi']
  | _ => rfl

theorem filter_stands_concat (names : List Ident) (name : Ident) :
    ds.filter (stands (names ++ [name])) = notWaiting name (ds.filter (stands names)) := by
  rw [notWaiting, List.filter_filter]
  congr 1
  funext d
  cases d with
  | impl i => by_cases h : i.self = name <;> simp [stands, waiting?, h]
  | _ => rfl

theorem mem_slots_filter {s : Decl.Slot} :
    s ∈ slots (ds.filter p) ↔ ∃ d ∈ ds, p d = true ∧ d.slot? = some s := by
  simp only [mem_slots, List.mem_filter, and_assoc]

/-- What stands in an arrangement: everything but the blocks whose type is declared. -/
theorem mem_slots_arrange {s : Decl.Slot} :
    s ∈ slots (arrange ds) ↔
      s ∈ slots ds ∧ ∀ self key, s = .waiter self key → self ∉ typeNames ds := by
  rw [arrange, slots_append, List.mem_append, mem_slots_firsts, mem_slots_firsts,
    mem_slots_filter, mem_slots_filter, mem_slots]
  constructor
  · rintro (⟨d, hd, hp, hs⟩ | ⟨d, hd, hp, hs⟩) <;> refine ⟨⟨d, hd, hs⟩, ?_⟩
    · rintro self key rfl
      exact absurd hs (slot?_ne_waiter_of_isUse hp)
    · rintro self key rfl
      cases d with
      | impl i =>
          obtain ⟨rfl, -⟩ := Decl.Slot.waiter.inj (Option.some.inj hs)
          simpa [stands] using hp
      | _ => cases hs
  · rintro ⟨⟨d, hd, hs⟩, hself⟩
    cases d with
    | use u => exact .inl ⟨_, hd, rfl, hs⟩
    | impl i =>
        refine .inr ⟨_, hd, ?_, hs⟩
        simpa [stands] using hself i.self i.traitKey (Option.some.inj hs).symm
    | _ => exact .inr ⟨_, hd, rfl, hs⟩

theorem mem_typeNames_arrange : name ∈ typeNames (arrange ds) ↔ name ∈ typeNames ds := by
  simp [mem_typeNames, mem_slots_arrange]

/-! ### Pushing to an arrangement -/

theorem insertUse_append {uses : List Decl} (u : Use) (huses : ∀ d ∈ uses, d.isUse = true)
    (hds : ∀ d ∈ ds, d.isUse = false) :
    insertUse u (uses ++ ds) = uses ++ .use u :: ds := by
  induction uses with
  | nil =>
      cases ds with
      | nil => rfl
      | cons d ds =>
          have hno : (d.isUse || ds.any Decl.isUse) = false := by
            obtain ⟨hd, hds⟩ := List.forall_mem_cons.mp hds
            simpa [hd] using hds
          rw [List.nil_append, insertUse, hno]
          rfl
  | cons v uses ih =>
      obtain ⟨hv, huses⟩ := List.forall_mem_cons.mp huses
      rw [List.cons_append, insertUse, hv, Bool.true_or, if_pos rfl, ih huses, List.cons_append]

theorem isUse_of_mem_firsts (h : d ∈ firsts (ds.filter Decl.isUse)) : d.isUse = true :=
  (List.mem_filter.mp (firsts_subset h)).2

theorem not_isUse_of_mem_firsts {names : List Ident}
    (h : d ∈ firsts (ds.filter (stands names))) : d.isUse = false := by
  have hstands := (List.mem_filter.mp (firsts_subset h)).2
  cases d with
  | use u => cases hstands
  | _ => rfl

theorem hasUse_iff_slots {u : Use} : hasUse u ds = true ↔ .use u ∈ slots ds := by
  rw [hasUse_iff, List.mem_filterMap, mem_slots]
  refine exists_congr fun d => and_congr_right fun _ => ?_
  cases d <;> simp [Decl.use?, Decl.slot?]

theorem any_waitsLike_iff_slots {i : Impl} :
    ds.any (waitsLike i) = true ↔ .waiter i.self i.traitKey ∈ slots ds := by
  rw [any_waitsLike, List.mem_filterMap, mem_slots]
  refine exists_congr fun d => and_congr_right fun _ => ?_
  cases d <;> simp [Decl.waitKey?, Decl.slot?]

theorem arrange_concat_use (u : Use) :
    arrange (ds ++ [.use u]) =
      addFirst (firsts (ds.filter Decl.isUse)) (.use u) ++
        firsts (ds.filter (stands (typeNames ds))) := by
  have hnames : typeNames (ds ++ [.use u]) = typeNames ds := by
    rw [typeNames_append]
    exact List.append_nil _
  have huse : [Decl.use u].filter Decl.isUse = [.use u] := rfl
  have hitem (names : List Ident) : [Decl.use u].filter (stands names) = [] := rfl
  rw [arrange, hnames, List.filter_append, List.filter_append, huse, hitem, firsts_concat,
    List.append_nil]

/-- A declaration that is no import, in the arrangement of a list that ends with it. -/
theorem arrange_concat {names : List Ident} (hd : d.isUse = false)
    (hnames : ∀ n, n ∈ typeNames (ds ++ [d]) ↔ n ∈ names) :
    arrange (ds ++ [d]) =
      firsts (ds.filter Decl.isUse) ++
        firsts (ds.filter (stands names) ++ [d].filter (stands names)) := by
  rw [arrange, stands_congr hnames, List.filter_append, List.filter_append]
  simp [hd]

theorem place_arrange_type (h : d.typeName? = some name) :
    place (arrange ds) d = arrange (ds ++ [d]) := by
  have hslot := slot?_of_typeName? h
  have huse := isUse_of_slot? hslot
  have hstands (names : List Ident) : [d].filter (stands names) = [d] :=
    List.filter_cons_of_pos (stands_of_slot? names hslot)
  have hlast : typeNames [d] = [name] := by simp [typeNames, h]
  have htaken : .type name ∈ slots (firsts (ds.filter (stands (typeNames ds)))) ↔
      name ∈ typeNames ds := by
    rw [mem_slots_firsts, mem_typeNames, mem_slots_filter, mem_slots]
    exact exists_congr fun e => and_congr_right fun _ => and_iff_right_of_imp (stands_of_slot? _)
  rw [place_of_typeName? h]
  by_cases hdecl : name ∈ typeNames ds
  · have hnames : ∀ n, n ∈ typeNames (ds ++ [d]) ↔ n ∈ typeNames ds := by simp [hlast, hdecl]
    rw [if_pos (isSome_typeDecl?.mpr (mem_typeNames_arrange.mpr hdecl)),
      arrange_concat huse hnames, hstands,
      firsts_concat, addFirst_of_taken hslot (htaken.mpr hdecl), arrange]
  · have huses : notWaiting name (firsts (ds.filter Decl.isUse)) =
        firsts (ds.filter Decl.isUse) := by
      refine List.filter_eq_self.mpr fun e he => ?_
      have := isUse_of_mem_firsts he
      cases e with
      | use u => rfl
      | _ => cases this
    have hfree : ∀ s, d.slot? = some s →
        s ∉ slots (firsts (notWaiting name (ds.filter (stands (typeNames ds))))) := by
      rintro s hs hmem
      obtain rfl := Option.some.inj (hslot.symm.trans hs)
      obtain ⟨e, he, hes⟩ := mem_slots.mp (mem_slots_firsts.mp hmem)
      exact hdecl (htaken.mp
        (mem_slots_firsts.mpr (mem_slots.mpr ⟨e, List.mem_of_mem_filter he, hes⟩)))
    have hnames : ∀ n, n ∈ typeNames (ds ++ [d]) ↔ n ∈ typeNames ds ++ [name] := by simp [hlast]
    rw [if_neg (fun hs => hdecl (mem_typeNames_arrange.mp (isSome_typeDecl?.mp hs))),
      arrange_concat huse hnames, hstands,
      filter_stands_concat, firsts_concat, addFirst_of_free hfree, arrange, notWaiting,
      List.filter_append, ← notWaiting, huses, filter_firsts (respectsSlots_notWaiting name),
      List.append_assoc]
    rfl

theorem place_arrange_impl (i : Impl) :
    place (arrange ds) (.impl i) = arrange (ds ++ [.impl i]) := by
  have hnames : ∀ n, n ∈ typeNames (ds ++ [.impl i]) ↔ n ∈ typeNames ds := by
    simp [typeNames, Decl.typeName?]
  have htaken : .waiter i.self i.traitKey ∈ slots (firsts (ds.filter (stands (typeNames ds)))) ↔
      (arrange ds).any (waitsLike i) = true := by
    have huse : .waiter i.self i.traitKey ∉ slots (firsts (ds.filter Decl.isUse)) := by
      rw [mem_slots_firsts, mem_slots_filter]
      rintro ⟨d, -, hd, hs⟩
      exact slot?_ne_waiter_of_isUse hd hs
    rw [any_waitsLike_iff_slots, arrange, slots_append, List.mem_append, or_iff_right huse]
  rw [arrange_concat rfl hnames]
  by_cases hdecl : i.self ∈ typeNames ds
  · have hdrop : [Decl.impl i].filter (stands (typeNames ds)) = [] := by simp [stands, hdecl]
    have hsome := isSome_typeDecl?.mpr (mem_typeNames_arrange.mpr hdecl)
    rw [hdrop, List.append_nil, place, hsome, Bool.true_or, if_pos rfl, arrange]
  · have hkeep : [Decl.impl i].filter (stands (typeNames ds)) = [.impl i] := by
      simp [stands, hdecl]
    have hnone : (typeDecl? (arrange ds) i.self).isSome = false := by
      rw [Bool.eq_false_iff]
      exact fun hs => hdecl (mem_typeNames_arrange.mp (isSome_typeDecl?.mp hs))
    rw [hkeep, firsts_concat, place, hnone, Bool.false_or]
    by_cases hlike : (arrange ds).any (waitsLike i) = true
    · rw [if_pos hlike, addFirst_of_taken rfl (htaken.mpr hlike), arrange]
    · rw [if_neg hlike, addFirst_of_free, ← List.append_assoc, arrange]
      rintro s hs hmem
      obtain rfl := Option.some.inj hs
      exact hlike (htaken.mp hmem)

/-- A push to an arrangement arranges one declaration more. -/
theorem place_arrange : place (arrange ds) d = arrange (ds ++ [d]) := by
  have hloose (hu : d.isUse = false) (hs : d.slot? = none) (ht : d.typeName? = none)
      (hst : ∀ names, stands names d = true) : arrange (ds ++ [d]) = arrange ds ++ [d] := by
    have hnames : ∀ n, n ∈ typeNames (ds ++ [d]) ↔ n ∈ typeNames ds := by simp [typeNames, ht]
    have hfree : ∀ s, d.slot? = some s →
        s ∉ slots (firsts (ds.filter (stands (typeNames ds)))) := by
      simp [hs]
    rw [arrange_concat hu hnames, List.filter_cons_of_pos (hst _), List.filter_nil, firsts_concat,
      addFirst_of_free hfree, arrange, List.append_assoc]
  cases d with
  | use u =>
      have htaken : .use u ∈ slots (firsts (ds.filter Decl.isUse)) ↔
          hasUse u (arrange ds) = true := by
        have hitem : .use u ∉ slots (firsts (ds.filter (stands (typeNames ds)))) := by
          rw [mem_slots_firsts, mem_slots_filter]
          rintro ⟨d, -, hd, hs⟩
          rw [eq_use_of_slot? hs] at hd
          cases hd
        rw [hasUse_iff_slots, arrange, slots_append, List.mem_append, or_iff_left hitem]
      rw [arrange_concat_use, place]
      by_cases hu : hasUse u (arrange ds) = true
      · rw [if_pos hu, addFirst_of_taken rfl (htaken.mpr hu), arrange]
      · have hfree : ∀ s, (Decl.use u).slot? = some s →
            s ∉ slots (firsts (ds.filter Decl.isUse)) := by
          rintro s hs hmem
          obtain rfl := Option.some.inj hs
          exact hu (htaken.mp hmem)
        rw [if_neg hu, addFirst_of_free hfree, arrange,
          insertUse_append u (fun _ => isUse_of_mem_firsts) (fun _ => not_isUse_of_mem_firsts),
          List.append_assoc, List.singleton_append]
  | struct s => exact place_arrange_type rfl
  | enum e => exact place_arrange_type rfl
  | impl i => exact place_arrange_impl i
  | func f => exact (hloose rfl rfl rfl fun _ => rfl).symm
  | verbatim text => exact (hloose rfl rfl rfl fun _ => rfl).symm

/-! ### Outlines of runs -/

/-- The outline of what was pushed is the arrangement of the bare declarations. -/
theorem Makes.outline_eq (h : Makes items ds) : outline ds = arrange (outline items) := by
  refine h.induction (P := fun items ds => outline ds = arrange (outline items)) rfl ?_
  intro items ds d es _ ih hd
  rw [outline_pushDecl hd, ih, place_arrange, outline_append]
  rfl

theorem arrange_filter_isUse : (arrange ds).filter Decl.isUse = firsts (ds.filter Decl.isUse) := by
  have hitems : (firsts (ds.filter (stands (typeNames ds)))).filter Decl.isUse = [] :=
    List.filter_eq_nil_iff.mpr fun d hd => by simp [not_isUse_of_mem_firsts hd]
  have huses : (firsts (ds.filter Decl.isUse)).filter Decl.isUse =
      firsts (ds.filter Decl.isUse) :=
    List.filter_eq_self.mpr fun d => isUse_of_mem_firsts
  rw [arrange, List.filter_append, hitems, huses, List.append_nil]

theorem arrange_filter_stands {names : List Ident} (h : typeNames ds ⊆ names) :
    (arrange ds).filter (stands names) = firsts (ds.filter (stands names)) := by
  have huses : (firsts (ds.filter Decl.isUse)).filter (stands names) = [] := by
    refine List.filter_eq_nil_iff.mpr fun d hd => ?_
    have := isUse_of_mem_firsts hd
    cases d with
    | use u => exact Bool.false_ne_true
    | _ => cases this
  rw [arrange, List.filter_append, huses, List.nil_append,
    filter_firsts (respectsSlots_stands names), filter_stands_filter_stands h]

/-- Arranging the pieces of a sequence before the whole changes nothing. -/
theorem arrange_flatMap {α : Type} (f : α → List Decl) (xs : List α) :
    arrange (xs.flatMap fun x => arrange (f x)) = arrange (xs.flatMap f) := by
  have hnames : ∀ n, n ∈ typeNames (xs.flatMap fun x => arrange (f x)) ↔
      n ∈ typeNames (xs.flatMap f) := by
    intro n
    have hmap (g : α → List Decl) : n ∈ typeNames (xs.flatMap g) ↔
        ∃ x ∈ xs, n ∈ typeNames (g x) := by
      simp only [typeNames, List.mem_filterMap, List.mem_flatMap]
      exact ⟨fun ⟨d, ⟨x, hx, hd⟩, hn⟩ => ⟨x, hx, d, hd, hn⟩,
        fun ⟨x, hx, d, hd, hn⟩ => ⟨d, ⟨x, hx, hd⟩, hn⟩⟩
    rw [hmap, hmap]
    simp only [mem_typeNames_arrange]
  have hsub : ∀ x ∈ xs, typeNames (f x) ⊆ typeNames (xs.flatMap f) := by
    intro x hx n hn
    obtain ⟨d, hd, hname⟩ := List.mem_filterMap.mp hn
    exact List.mem_filterMap.mpr ⟨d, List.mem_flatMap.mpr ⟨x, hx, hd⟩, hname⟩
  have hstands : xs.flatMap (fun x => (arrange (f x)).filter (stands (typeNames (xs.flatMap f)))) =
      xs.flatMap fun x => firsts ((f x).filter (stands (typeNames (xs.flatMap f)))) :=
    List.flatMap_congr fun x hx => arrange_filter_stands (hsub x hx)
  rw [arrange, arrange, stands_congr hnames, List.filter_flatMap, List.filter_flatMap,
    List.filter_flatMap, List.filter_flatMap]
  simp only [arrange_filter_isUse]
  rw [hstands, firsts_flatMap, firsts_flatMap]

theorem kindsOf_outline : kindsOf (outline ds) name = kindsOf ds name := by
  unfold kindsOf outline
  rw [List.filterMap_map]
  congr 1
  funext d
  cases d <;> rfl

theorem Tidy.outline (h : Tidy ds) : Tidy (outline ds) := by
  refine h.of_keeps ?_
  rw [Module.outline, List.forall₂_map_right_iff, List.forall₂_same]
  exact fun d _ => d.keeps_bare

/-- A push keeps an outline tidy, also where the blocks of a type are for one trait. -/
theorem tidy_outline_pushDecl (h : Tidy (outline ds)) (hd : pushDecl ds d = (es, .ok ())) :
    Tidy (outline es) := by
  -- the bare declaration can be pushed to the outline, where traits are no concern
  have hok : ∃ es', pushDecl (outline ds) d.bare = (es', .ok ()) := by
    have := exists_pushDecl_iff.mp ⟨es, hd⟩
    refine exists_pushDecl_iff.mpr fun name hname k hk => ?_
    rw [kindsOf_outline] at hk
    rw [Decl.kind_bare]
    exact this name (d.typeName?_bare ▸ hname) k hk
  obtain ⟨es', hes'⟩ := hok
  have htraits : d.bare.TraitsDistinct := by simp [Decl.TraitsDistinct]
  have hsame : outline es' = outline es := by
    have htwice : outline (outline ds) = outline ds := by simp [outline, Function.comp_def]
    rw [outline_pushDecl hes', outline_pushDecl hd, htwice, Decl.bare_bare]
  exact hsame ▸ (h.pushDecl htraits hes').outline

/-- The outline of a run is tidy; only the blocks within a type need not be for different
traits. -/
theorem Makes.tidy_outline (h : Makes items ds) : Tidy (outline ds) :=
  h.induction (P := fun _ ds => Tidy (outline ds)) tidy_nil
    fun _ _ _ _ _ ih hd => tidy_outline_pushDecl ih hd

/-! ### The first type of a name -/

theorem typeDecl?_append {es : List Decl} :
    typeDecl? (ds ++ es) name = (typeDecl? ds name).or (typeDecl? es name) := List.find?_append

theorem typeDecl?_singleton :
    typeDecl? [d] name = if d.typeName? = some name then some d else none := by
  by_cases h : d.typeName? = some name <;> simp [typeDecl?, declares, h]

theorem map_bare_typeDecl? : (typeDecl? ds name).map Decl.bare = typeDecl? (outline ds) name := by
  unfold typeDecl? outline
  rw [List.find?_map]
  congr 2
  funext d
  simp [declares]

theorem typeDecl?_firsts : typeDecl? (firsts ds) name = typeDecl? ds name := by
  induction ds using List.reverseRecOn with
  | nil => rfl
  | append_singleton ds d ih =>
      rw [firsts_concat, typeDecl?_append, ← ih, addFirst]
      split
      · next htaken =>
          by_cases hd : d.typeName? = some name
          · obtain ⟨s, hs, hslot⟩ := htaken
            obtain rfl := Option.some.inj ((slot?_of_typeName? hd).symm.trans hslot)
            have hfound := isSome_typeDecl?.mpr (mem_typeNames.mpr hs)
            exact (Option.or_of_isSome hfound).symm
          · rw [typeDecl?_singleton, if_neg hd, Option.or_none]
      · exact typeDecl?_append

theorem typeDecl?_filter {p : Decl → Bool} (h : ∀ d, d.typeName? = some name → p d = true) :
    typeDecl? (ds.filter p) name = typeDecl? ds name := by
  unfold typeDecl?
  rw [List.find?_filter]
  congr 1
  funext d
  by_cases hd : d.typeName? = some name
  · simp [declares, hd, h d hd]
  · simp [declares, hd]

theorem typeDecl?_arrange : typeDecl? (arrange ds) name = typeDecl? ds name := by
  have huses : typeDecl? (firsts (ds.filter Decl.isUse)) name = none := by
    rw [typeDecl?, List.find?_eq_none]
    intro d hd
    have := isUse_of_mem_firsts hd
    cases d with
    | use u => exact Bool.false_ne_true
    | _ => cases this
  rw [arrange, typeDecl?_append, huses, Option.none_or, typeDecl?_firsts,
    typeDecl?_filter fun d hd => stands_of_slot? _ (slot?_of_typeName? hd)]

/-- Of the types of one name a run keeps the first, with all that it holds but impl blocks. -/
theorem Makes.map_bare_typeDecl? (h : Makes items ds) (name : Ident) :
    (typeDecl? ds name).map Decl.bare = (typeDecl? items name).map Decl.bare := by
  rw [Module.map_bare_typeDecl?, Module.map_bare_typeDecl?, h.outline_eq, typeDecl?_arrange]

theorem exists_typeDecl? (hd : d ∈ ds) (hn : d.typeName? = some name) :
    ∃ e, typeDecl? ds name = some e := by
  have hmem : name ∈ typeNames ds := List.mem_filterMap.mpr ⟨d, hd, hn⟩
  exact Option.isSome_iff_exists.mp (isSome_typeDecl?.mpr hmem)

theorem mem_of_typeDecl? (h : typeDecl? ds name = some d) : d ∈ ds ∧ d.typeName? = some name :=
  ⟨List.mem_of_find?_eq_some h, declares_iff.mp (List.find?_some h)⟩

theorem Makes.nodup_typeNames (h : Makes items ds) : (typeNames ds).Nodup := by
  rw [← typeNames_outline]
  exact h.tidy_outline.typesDistinct

/-- Where names do not repeat, the only type of a name is the first. -/
theorem typeDecl?_eq_some (hnodup : (typeNames ds).Nodup) (hd : d ∈ ds)
    (hn : d.typeName? = some name) : typeDecl? ds name = some d := by
  induction ds with
  | nil => cases hd
  | cons x ds ih =>
      by_cases hx : x.typeName? = some name
      · rw [typeNames, List.filterMap_cons_some hx, List.nodup_cons] at hnodup
        rcases List.mem_cons.mp hd with rfl | hd
        · exact List.find?_cons_of_pos (declares_iff.mpr hx)
        · exact absurd (List.mem_filterMap.mpr ⟨d, hd, hn⟩) hnodup.1
      · have hrest : (typeNames ds).Nodup :=
          hnodup.sublist ((List.sublist_cons_self x ds).filterMap _)
        rcases List.mem_cons.mp hd with rfl | hd
        · exact absurd hn hx
        · rw [typeDecl?, List.find?_cons_of_neg (fun h => hx (declares_iff.mp h))]
          exact ih hrest hd

end Module
end ClientLoom
