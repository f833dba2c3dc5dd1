import ClientLoom.Proofs.Module.Attaching
import ClientLoom.Proofs.Module.Outline

/-! # What impl blocks offer

An impl block offers its trait and, under the key of the trait, the names of its functions
(`Impl.offers`).  Attaching and absorbing neither lose nor invent an offer
(`Impl.mem_offers_attachAll`), wherever the blocks of a type stand: with the type or waiting for it
(`Decl.held`).  So what is offered for a type after a push is what was offered before together
with what the pushed declaration offers (`mem_offersFor_pushDecl`), and after a run it is what all
pushed declarations offer (`Makes.mem_offersFor`).

In a tidy outline the blocks that are held for a type are those of its declaration, or else those
that wait for it (`blocksFor_eq_flatMap`). -/

namespace ClientLoom

/-! ### Blocks -/

namespace Impl

/-- What a block offers: its trait, and the names of its functions under the key of the trait. -/
def offers (i : Impl) : List (String × Option Ident) :=
  (i.traitKey, none) :: i.fns.map fun f => (i.traitKey, some f.name)

/-- What blocks offer. -/
def allOffers (blocks : List Impl) : List (String × Option Ident) := blocks.flatMap offers

theorem mem_names_addFn {i : Impl} {f : Func} {name : Ident} :
    name ∈ (i.addFn f).fns.map Func.name ↔ name ∈ i.fns.map Func.name ∨ name = f.name := by
  by_cases h : f.name ∈ i.fns.map Func.name
  · rw [addFn_of_mem h]
    refine (or_iff_left_of_imp fun heq => ?_).symm
    rwa [heq]
  · rw [addFn_of_not_mem h, List.map_append, List.mem_append, List.map_singleton,
      List.mem_singleton]

theorem mem_names_absorb {i other : Impl} {name : Ident} :
    name ∈ (i.absorb other).fns.map Func.name ↔
      name ∈ i.fns.map Func.name ∨ name ∈ other.fns.map Func.name := by
  unfold absorb
  induction other.fns generalizing i with
  | nil => simp
  | cons f fns ih =>
      rw [List.foldl_cons, ih, mem_names_addFn, List.map_cons, List.mem_cons, or_assoc]

theorem mem_offers {i : Impl} {x : String × Option Ident} :
    x ∈ i.offers ↔
      x.1 = i.traitKey ∧ ∀ name, x.2 = some name → name ∈ i.fns.map Func.name := by
  obtain ⟨key, name⟩ := x
  unfold offers
  rw [List.mem_cons]
  cases name with
  | none => simp
  | some name =>
      simp only [Prod.mk.injEq, reduceCtorEq, and_false, false_or, List.mem_map, Option.some.injEq,
        forall_eq']
      constructor
      · rintro ⟨f, hf, hkey, hname⟩
        exact ⟨hkey.symm, f, hf, hname⟩
      · rintro ⟨hkey, f, hf, hname⟩
        exact ⟨f, hf, hkey.symm, hname⟩

theorem mem_offers_absorb {i other : Impl} (h : i.traitKey = other.traitKey)
    {x : String × Option Ident} :
    x ∈ (i.absorb other).offers ↔ x ∈ i.offers ∨ x ∈ other.offers := by
  obtain ⟨key, name⟩ := x
  simp only [mem_offers, absorb_traitKey, mem_names_absorb, ← h, ← and_or_left]
  refine and_congr_right fun _ => ?_
  cases name with
  | none => simp
  | some name => simp only [Option.some.injEq, forall_eq']

theorem mem_offers_attach {blocks : List Impl} {new : Impl} {x : String × Option Ident} :
    x ∈ allOffers (attach blocks new) ↔ x ∈ allOffers blocks ∨ x ∈ new.offers := by
  unfold allOffers
  induction blocks with
  | nil => simp [attach]
  | cons b blocks ih =>
      by_cases h : b.traitKey = new.traitKey
      · rw [attach_cons_of_eq h, List.flatMap_cons, List.flatMap_cons, List.mem_append,
          List.mem_append, mem_offers_absorb h, or_right_comm]
      · rw [attach_cons_of_ne h, List.flatMap_cons, List.flatMap_cons, List.mem_append,
          List.mem_append, ih, or_assoc]

theorem mem_offers_attachAll {blocks more : List Impl} {x : String × Option Ident} :
    x ∈ allOffers (attachAll blocks more) ↔ x ∈ allOffers blocks ∨ x ∈ allOffers more := by
  unfold attachAll
  induction more generalizing blocks with
  | nil => simp [allOffers]
  | cons new more ih =>
      rw [List.foldl_cons, ih, mem_offers_attach, or_assoc]
      refine or_congr_right ?_
      rw [allOffers, allOffers, List.flatMap_cons, List.mem_append]

/-- The traits of blocks are among what the blocks offer. -/
theorem mem_traitKeys_iff {blocks : List Impl} {key : String} :
    key ∈ blocks.map traitKey ↔ (key, none) ∈ allOffers blocks := by
  simp [allOffers, mem_offers, eq_comm]

/-- Some block of the given trait has a function of the given name. -/
def HasFn (blocks : List Impl) (key : String) (name : Ident) : Prop :=
  ∃ b ∈ blocks, b.traitKey = key ∧ name ∈ b.fns.map Func.name

theorem hasFn_iff {blocks : List Impl} {key : String} {name : Ident} :
    HasFn blocks key name ↔ (key, some name) ∈ allOffers blocks := by
  simp only [HasFn, allOffers, List.mem_flatMap, mem_offers, Option.some.injEq, forall_eq', eq_comm]

end Impl

/-! ### Declarations -/

/-- The impl blocks that a declaration holds for the type called `name`. -/
def Decl.held (name : Ident) : Decl → List Impl
  | .struct s => if s.name = name then s.impls else []
  | .enum e => if e.name = name then e.impls else []
  | .impl i => if i.self = name then [i] else []
  | _ => []

/-- What a declaration offers for the type called `name`. -/
def Decl.offersFor (name : Ident) (d : Decl) : List (String × Option Ident) :=
  Impl.allOffers (d.held name)

namespace Module

variable {ds es items : List Decl} {d : Decl} {name other : Ident} {x : String × Option Ident}

/-- What declarations offer for the type called `name`. -/
def offersFor (ds : List Decl) (name : Ident) : List (String × Option Ident) :=
  ds.flatMap (Decl.offersFor name)

theorem mem_offersFor_append :
    x ∈ offersFor (ds ++ es) name ↔ x ∈ offersFor ds name ∨ x ∈ offersFor es name := by
  rw [offersFor, List.flatMap_append, List.mem_append]
  rfl

theorem mem_offersFor_singleton : x ∈ offersFor [d] name ↔ x ∈ d.offersFor name := by
  rw [offersFor, List.flatMap_singleton]

theorem held_of_typeName? {n : Ident} (h : d.typeName? = some n) :
    d.held name = if n = name then d.impls else [] := by
  cases d with
  | struct s => rw [← Option.some.inj h]; rfl
  | enum e => rw [← Option.some.inj h]; rfl
  | _ => cases h

theorem held_mapImpls_of_typeName? {n : Ident} (f : List Impl → List Impl)
    (h : d.typeName? = some n) :
    (d.mapImpls f).held name = if n = name then f d.impls else [] := by
  cases d with
  | struct s => rw [← Option.some.inj h]; rfl
  | enum e => rw [← Option.some.inj h]; rfl
  | _ => cases h

theorem held_of_waiting? {i : Impl} (h : waiting? other d = some i) :
    d.held name = if other = name then [i] else [] := by
  cases d with
  | impl j =>
      by_cases hj : j.self = other
      · simp only [waiting?, hj, beq_self_eq_true, if_true, Option.some.injEq] at h
        rw [← h, ← hj]
        rfl
      · simp [waiting?, hj] at h
  | _ => cases h

/-- Changing the first declaration with a property adds to the offers what it adds to those of the
declaration. -/
theorem mem_offersFor_modifyFirst {p : Decl → Bool} {f : Decl → Decl} {P : Prop}
    (hex : ∃ d ∈ ds, p d = true)
    (hf : ∀ d, p d = true → (x ∈ (f d).offersFor name ↔ x ∈ d.offersFor name ∨ P)) :
    x ∈ offersFor (modifyFirst p f ds) name ↔ x ∈ offersFor ds name ∨ P := by
  unfold offersFor
  induction ds with
  | nil => simp at hex
  | cons d ds ih =>
      unfold modifyFirst
      split
      · next hp =>
          rw [List.flatMap_cons, List.flatMap_cons, List.mem_append, List.mem_append, hf d hp,
            or_right_comm]
      · next hp =>
          have hrest : ∃ e ∈ ds, p e = true := by
            obtain ⟨e, he, hpe⟩ := hex
            rcases List.mem_cons.mp he with rfl | he
            · exact absurd hpe hp
            · exact ⟨e, he, hpe⟩
          rw [List.flatMap_cons, List.flatMap_cons, List.mem_append, List.mem_append, ih hrest,
            or_assoc]

theorem mem_offersFor_attachTo {n : Ident} {blocks : List Impl} (h : n ∈ typeNames ds) :
    x ∈ offersFor (attachTo ds n blocks) name ↔
      x ∈ offersFor ds name ∨ n = name ∧ x ∈ Impl.allOffers blocks := by
  have hex : ∃ d ∈ ds, declares n d = true := by
    obtain ⟨d, hd, hn⟩ := List.mem_filterMap.mp h
    exact ⟨d, hd, declares_iff.mpr hn⟩
  refine mem_offersFor_modifyFirst hex fun d hd => ?_
  have hn := declares_iff.mp hd
  rw [Decl.offersFor, Decl.offersFor, held_of_typeName? hn, held_mapImpls_of_typeName? _ hn]
  by_cases hname : n = name
  · rw [if_pos hname, if_pos hname, Impl.mem_offers_attachAll, and_iff_right hname]
  · simp [hname]

/-- What is offered for a type stands with the blocks that wait for it or elsewhere. -/
theorem mem_offersFor_notWaiting (n : Ident) (ds : List Decl) :
    x ∈ offersFor ds name ↔
      x ∈ offersFor (notWaiting n ds) name ∨
        n = name ∧ x ∈ Impl.allOffers (ds.filterMap (waiting? n)) := by
  unfold offersFor notWaiting Impl.allOffers
  induction ds with
  | nil => simp
  | cons d ds ih =>
      cases hd : waiting? n d with
      | none =>
          rw [List.filter_cons_of_pos (by simp [hd]), List.filterMap_cons_none hd,
            List.flatMap_cons, List.flatMap_cons, List.mem_append, List.mem_append, ih, or_assoc]
      | some i =>
          rw [List.filter_cons_of_neg (by simp [hd]), List.filterMap_cons_some hd,
            List.flatMap_cons, List.flatMap_cons, List.mem_append, List.mem_append, ih,
            Decl.offersFor, held_of_waiting? hd, and_or_left, or_left_comm]
          by_cases hname : n = name <;> simp [hname, Impl.allOffers]

theorem mem_offersFor_insertUse (u : Use) :
    x ∈ offersFor (insertUse u ds) name ↔ x ∈ offersFor ds name := by
  have hperm := (insertUse_perm u ds).flatMap_right (Decl.offersFor name)
  exact hperm.mem_iff

theorem mem_offersFor_appendType {n : Ident} (hd : d.typeName? = some n) :
    x ∈ offersFor (appendType ds n d) name ↔ x ∈ offersFor ds name ∨ x ∈ d.offersFor name := by
  rw [appendType, ← notWaiting, mem_offersFor_append, mem_offersFor_singleton,
    mem_offersFor_notWaiting n ds, Decl.offersFor, Decl.offersFor,
    held_mapImpls_of_typeName? _ hd, held_of_typeName? hd, or_assoc]
  refine or_congr_right ?_
  by_cases hname : n = name
  · rw [if_pos hname, if_pos hname, Impl.mem_offers_attachAll, and_iff_right hname, or_comm]
  · simp [hname, Impl.allOffers]

theorem mem_offersFor_pushImpl (i : Impl) :
    x ∈ offersFor (pushImpl ds i) name ↔
      x ∈ offersFor ds name ∨ x ∈ (Decl.impl i).offersFor name := by
  have hown : x ∈ (Decl.impl i).offersFor name ↔ i.self = name ∧ x ∈ i.offers := by
    by_cases hself : i.self = name <;> simp [Decl.offersFor, Decl.held, Impl.allOffers, hself]
  rw [hown]
  unfold pushImpl
  split
  · next hdecl =>
      rw [mem_offersFor_attachTo (isSome_typeDecl?.mp hdecl), Impl.allOffers,
        List.flatMap_singleton]
  split
  · next hlike =>
      refine mem_offersFor_modifyFirst (List.any_eq_true.mp hlike) fun d hd => ?_
      cases d with
      | impl j =>
          obtain ⟨hself, hkey⟩ : j.self = i.self ∧ j.traitKey = i.traitKey := by
            simpa [waitsLike] using hd
          by_cases hname : i.self = name
          · simp [Decl.offersFor, Decl.held, Impl.allOffers, hself, hname,
              Impl.mem_offers_absorb hkey]
          · simp [Decl.offersFor, Decl.held, Impl.allOffers, hself, hname]
      | _ => cases hd
  · rw [mem_offersFor_append, mem_offersFor_singleton, hown]

/-- After a push a type is offered what it was offered before and what was pushed. -/
theorem mem_offersFor_pushDecl (h : pushDecl ds d = (es, .ok ())) :
    x ∈ offersFor es name ↔ x ∈ offersFor ds name ∨ x ∈ d.offersFor name := by
  cases pushed_of_pushDecl h with
  | useAgain _ => exact (or_iff_left List.not_mem_nil).symm
  | useNew _ => exact (mem_offersFor_insertUse _).trans (or_iff_left List.not_mem_nil).symm
  | typeNew hd _ => exact mem_offersFor_appendType hd
  | @typeAgain _ _ n hd hold _ =>
      have hdeclared : n ∈ typeNames ds := isSome_typeDecl?.mp (by rw [hold]; rfl)
      rw [mem_offersFor_attachTo hdeclared, Decl.offersFor, held_of_typeName? hd]
      by_cases hname : n = name <;> simp [hname, Impl.allOffers]
  | impl i => exact mem_offersFor_pushImpl i
  | func _ | verbatim _ =>
      exact mem_offersFor_append.trans (or_congr_right mem_offersFor_singleton)

/-- A run neither loses nor invents what is offered for a type. -/
theorem Makes.mem_offersFor (h : Makes items ds) :
    x ∈ offersFor ds name ↔ x ∈ offersFor items name := by
  refine h.induction
    (P := fun items ds => x ∈ offersFor ds name ↔ x ∈ offersFor items name) Iff.rfl ?_
  intro items ds d es _ ih hd
  rw [mem_offersFor_pushDecl hd, ih, mem_offersFor_append, mem_offersFor_singleton]

/-! ### The blocks of a type -/

theorem held_eq_waiting? (h : d.typeName? ≠ some name) :
    d.held name = (waiting? name d).toList := by
  cases d with
  | struct s => exact if_neg fun heq => h (congrArg some heq)
  | enum e => exact if_neg fun heq => h (congrArg some heq)
  | impl i => by_cases hi : i.self = name <;> simp [Decl.held, waiting?, hi]
  | _ => rfl

theorem held_eq_nil (htype : d.typeName? ≠ some name) (hwait : ∀ i, d = .impl i → i.self ≠ name) :
    d.held name = [] := by
  cases d with
  | struct s => exact if_neg fun heq => htype (congrArg some heq)
  | enum e => exact if_neg fun heq => htype (congrArg some heq)
  | impl i => exact if_neg (hwait i rfl)
  | _ => rfl

/-- The blocks that are held for a type are those of its declaration, or those that wait for it. -/
theorem blocksFor_eq_flatMap (h : Tidy (outline ds)) (name : Ident) :
    blocksFor ds name = ds.flatMap (Decl.held name) := by
  unfold blocksFor
  cases hd : typeDecl? ds name with
  | none =>
      have hno := List.find?_eq_none.mp hd
      rw [List.filterMap_eq_flatMap_toList]
      refine List.flatMap_congr fun d hmem => (held_eq_waiting? fun hname => ?_).symm
      exact hno d hmem (declares_iff.mpr hname)
  | some d =>
      obtain ⟨hdeclares, before, after, rfl, hbefore⟩ := List.find?_eq_some_iff_append.mp hd
      have hname := declares_iff.mp hdeclares
      have hnames : (typeNames (before ++ d :: after)).Nodup := typeNames_outline ▸ h.typesDistinct
      -- no other declaration has the name, and nothing waits for it
      have hnil (e : Decl) (he : e ∈ before ++ d :: after) (hne : e.typeName? ≠ some name) :
          e.held name = [] := by
        refine held_eq_nil hne fun i hi hself => ?_
        subst hi
        have hout : Decl.bare (.impl i) ∈ outline (before ++ d :: after) :=
          List.mem_map_of_mem he
        refine h.waitersHomeless _ hout ?_
        rw [← typeNames, typeNames_outline, hself]
        exact List.mem_filterMap.mpr ⟨d, by simp, hname⟩
      have hafter : ∀ e ∈ after, e.typeName? ≠ some name := by
        intro e he heq
        have hsplit : typeNames (before ++ d :: after) =
            typeNames before ++ name :: typeNames after := by
          simp [typeNames, hname]
        rw [hsplit] at hnames
        have hnot := (List.nodup_cons.mp (List.nodup_append.mp hnames).2.1).1
        exact hnot (List.mem_filterMap.mpr ⟨e, he, heq⟩)
      have hbefore' : before.flatMap (Decl.held name) = [] := by
        refine List.flatMap_eq_nil_iff.mpr fun e he => hnil e (by simp [he]) fun heq => ?_
        have := hbefore e he
        rw [declares_iff.mpr heq] at this
        cases this
      have hafter' : after.flatMap (Decl.held name) = [] :=
        List.flatMap_eq_nil_iff.mpr fun e he => hnil e (by simp [he]) (hafter e he)
      rw [List.flatMap_append, List.flatMap_cons, hbefore', hafter', held_of_typeName? hname,
        if_pos rfl, List.nil_append, List.append_nil]

/-- The offers of the blocks of a type after a run. -/
theorem Makes.mem_allOffers_blocksFor (h : Makes items ds) :
    x ∈ Impl.allOffers (blocksFor ds name) ↔ x ∈ offersFor items name := by
  rw [← h.mem_offersFor, blocksFor_eq_flatMap h.tidy_outline, Impl.allOffers, List.flatMap_assoc]
  rfl

end Module
end ClientLoom
