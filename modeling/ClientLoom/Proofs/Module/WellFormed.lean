import Mathlib.Data.List.Forall2
import Mathlib.Data.List.Nodup
import ClientLoom.Proofs.Module.FirstChange

/-! # Well-formed modules

The order that `Module.push` keeps among the declarations of a module, as a predicate of its own.
`Module.Tidy` has one clause for each rule: imports come first and do not repeat, a name is
declared as a type once, an impl block waits only for a type that is not declared and only once
for each trait, and a type has one impl block for each trait.

What a push does is one of three things: it puts another declaration in the place of one that is
there (`Decl.Keeps`), it appends a declaration, or it inserts an import.  Each of them keeps a list
tidy (`Tidy.of_keeps`, `Tidy.append`, `Tidy.insertUse`), and so does every push
(`Tidy.pushDecl`). -/

namespace ClientLoom

/-! ### Impl blocks of one type -/

namespace Impl

@[simp] theorem addFn_self (i : Impl) (f : Func) : (i.addFn f).self = i.self := by
  unfold addFn
  split <;> rfl

@[simp] theorem addFn_trait (i : Impl) (f : Func) : (i.addFn f).trait = i.trait := by
  unfold addFn
  split <;> rfl

@[simp] theorem absorb_self (i other : Impl) : (i.absorb other).self = i.self := by
  unfold absorb
  induction other.fns generalizing i with
  | nil => rfl
  | cons f fs ih => rw [List.foldl_cons, ih, addFn_self]

@[simp] theorem absorb_trait (i other : Impl) : (i.absorb other).trait = i.trait := by
  unfold absorb
  induction other.fns generalizing i with
  | nil => rfl
  | cons f fs ih => rw [List.foldl_cons, ih, addFn_trait]

@[simp] theorem absorb_traitKey (i other : Impl) : (i.absorb other).traitKey = i.traitKey := by
  simp only [traitKey, absorb_trait]

/-- A block that is attached adds its trait, unless there is a block for it. -/
theorem map_traitKey_attach (blocks : List Impl) (new : Impl) :
    (attach blocks new).map traitKey =
      if new.traitKey ∈ blocks.map traitKey then blocks.map traitKey
      else blocks.map traitKey ++ [new.traitKey] := by
  induction blocks with
  | nil => simp [attach]
  | cons block rest ih =>
      unfold attach
      by_cases h : block.traitKey = new.traitKey
      · simp [h]
      · have h' : new.traitKey ≠ block.traitKey := fun e => h e.symm
        simp only [beq_iff_eq, h, if_false, List.map_cons, List.mem_cons, h', false_or, ih]
        split <;> rfl

theorem nodup_traitKey_attach {blocks : List Impl} (h : (blocks.map traitKey).Nodup) (new : Impl) :
    ((attach blocks new).map traitKey).Nodup := by
  rw [map_traitKey_attach]
  split
  · exact h
  · next hn => exact h.append (List.nodup_singleton _) (List.disjoint_singleton.mpr hn)

theorem nodup_traitKey_attachAll {blocks : List Impl} (h : (blocks.map traitKey).Nodup)
    (more : List Impl) : ((attachAll blocks more).map traitKey).Nodup := by
  unfold attachAll
  induction more generalizing blocks with
  | nil => exact h
  | cons new rest ih => exact ih (nodup_traitKey_attach h new)

end Impl

/-! ### The clauses -/

namespace Decl

/-- The import of a declaration that is one. -/
def use? : Decl → Option Use
  | .use u => some u
  | _ => none

/-- The impl blocks of a struct or an enum. -/
def impls : Decl → List Impl
  | .struct s => s.impls
  | .enum e => e.impls
  | _ => []

/-- The type and the trait of an impl block that waits for its type. -/
def waitKey? : Decl → Option (Ident × String)
  | .impl i => some (i.self, i.traitKey)
  | _ => none

/-- The impl blocks of a declaration are for different traits. -/
def TraitsDistinct (d : Decl) : Prop := (d.impls.map Impl.traitKey).Nodup

theorem isUse_eq (d : Decl) : d.isUse = d.use?.isSome := by
  cases d <;> rfl

theorem use?_of_typeName? {d : Decl} {name : Ident} (h : d.typeName? = some name) :
    d.use? = none := by
  cases d with
  | use u => cases h
  | _ => rfl

end Decl

namespace Module

/-- The rules that the declarations of a module follow. -/
structure Tidy (ds : List Decl) : Prop where
  /-- only imports stand before an import -/
  usesFirst : ds.Pairwise fun a b => b.isUse → a.isUse
  usesDistinct : (ds.filterMap Decl.use?).Nodup
  /-- no two types share a name, of whatever kind they are -/
  typesDistinct : (ds.filterMap Decl.typeName?).Nodup
  /-- no block waits for a type that is declared -/
  waitersHomeless : ∀ i, Decl.impl i ∈ ds → i.self ∉ ds.filterMap Decl.typeName?
  /-- no two blocks wait for the same type and trait -/
  waitersDistinct : (ds.filterMap Decl.waitKey?).Nodup
  blocksDistinct : ∀ d ∈ ds, d.TraitsDistinct

/-- A module whose declarations follow the rules. -/
def WellFormed (m : Module) : Prop := Tidy m.decls

variable {ds es : List Decl}

theorem mem_waitKeys {k : Ident × String} :
    k ∈ ds.filterMap Decl.waitKey? ↔ ∃ i, Decl.impl i ∈ ds ∧ (i.self, i.traitKey) = k := by
  rw [List.mem_filterMap]
  constructor
  · rintro ⟨d, hd, hk⟩
    cases d with
    | impl i => exact ⟨i, hd, Option.some.inj hk⟩
    | _ => cases hk
  · rintro ⟨i, hi, rfl⟩
    exact ⟨.impl i, hi, rfl⟩

/-- The clause on waiting blocks by their keys. -/
theorem waitersHomeless_iff :
    (∀ i, Decl.impl i ∈ ds → i.self ∉ ds.filterMap Decl.typeName?) ↔
      ∀ k ∈ ds.filterMap Decl.waitKey?, k.1 ∉ ds.filterMap Decl.typeName? := by
  constructor
  · intro h k hk
    obtain ⟨i, hi, rfl⟩ := mem_waitKeys.mp hk
    exact h i hi
  · intro h i hi
    exact h (i.self, i.traitKey) (mem_waitKeys.mpr ⟨i, hi, rfl⟩)

theorem tidy_nil : Tidy [] where
  usesFirst := .nil
  usesDistinct := .nil
  typesDistinct := .nil
  waitersHomeless := by simp
  waitersDistinct := .nil
  blocksDistinct := by simp

theorem tidy_singleton {d : Decl} (h : d.TraitsDistinct) : Tidy [d] where
  usesFirst := List.pairwise_singleton _ d
  usesDistinct := by
    cases hd : d.use? <;> simp [hd]
  typesDistinct := by
    cases hd : d.typeName? <;> simp [hd]
  waitersHomeless := by
    intro i hi
    obtain rfl := List.mem_singleton.mp hi
    exact List.not_mem_nil
  waitersDistinct := by
    cases hd : d.waitKey? <;> simp [hd]
  blocksDistinct := by
    intro e he
    obtain rfl := List.mem_singleton.mp he
    exact h

/-- Declarations can be left out. -/
theorem Tidy.sublist (h : Tidy ds) (hs : es.Sublist ds) : Tidy es where
  usesFirst := h.usesFirst.sublist hs
  usesDistinct := h.usesDistinct.sublist (hs.filterMap _)
  typesDistinct := h.typesDistinct.sublist (hs.filterMap _)
  waitersHomeless := fun i hi hn => h.waitersHomeless i (hs.subset hi) ((hs.filterMap _).subset hn)
  waitersDistinct := h.waitersDistinct.sublist (hs.filterMap _)
  blocksDistinct := fun d hd => h.blocksDistinct d (hs.subset hd)

theorem Tidy.filter (h : Tidy ds) (p : Decl → Bool) : Tidy (ds.filter p) :=
  h.sublist List.filter_sublist

/-! ### Putting a declaration in the place of another -/

end Module

/-- A declaration that can stand in the place of `d`: the same import, the same type or a block
that waits for the same type and trait. -/
structure Decl.Keeps (d e : Decl) : Prop where
  use : e.use? = d.use?
  typeName : e.typeName? = d.typeName?
  waitKey : e.waitKey? = d.waitKey?
  traits : d.TraitsDistinct → e.TraitsDistinct

theorem Decl.Keeps.refl (d : Decl) : d.Keeps d := ⟨rfl, rfl, rfl, id⟩

/-- Attaching blocks to a type changes nothing else. -/
theorem Decl.keeps_attachAll (d : Decl) (more : List Impl) :
    d.Keeps (d.mapImpls (Impl.attachAll · more)) where
  use := by cases d <;> rfl
  typeName := by cases d <;> rfl
  waitKey := by cases d <;> rfl
  traits := by
    intro h
    cases d with
    | struct s => exact Impl.nodup_traitKey_attachAll h more
    | enum e => exact Impl.nodup_traitKey_attachAll h more
    | _ => exact h

namespace Module

variable {ds es : List Decl}

theorem filterMap_eq_of_forall₂ {α β : Type} {R : α → α → Prop} {f : α → Option β} {xs ys : List α}
    (h : List.Forall₂ R xs ys) (hf : ∀ x y, R x y → f y = f x) :
    ys.filterMap f = xs.filterMap f := by
  induction h with
  | nil => rfl
  | cons hr _ ih => rw [List.filterMap_cons, List.filterMap_cons, hf _ _ hr, ih]

theorem map_eq_of_forall₂ {α β : Type} {R : α → α → Prop} {f : α → β} {xs ys : List α}
    (h : List.Forall₂ R xs ys) (hf : ∀ x y, R x y → f y = f x) : ys.map f = xs.map f := by
  induction h with
  | nil => rfl
  | cons hr _ ih => rw [List.map_cons, List.map_cons, hf _ _ hr, ih]

/-- A tidy list stays tidy when each declaration makes room for one that can stand in its place. -/
theorem Tidy.of_keeps (h : Tidy ds) (hk : List.Forall₂ Decl.Keeps ds es) : Tidy es := by
  have huses : es.filterMap Decl.use? = ds.filterMap Decl.use? :=
    filterMap_eq_of_forall₂ hk fun _ _ k => k.use
  have htypes : es.filterMap Decl.typeName? = ds.filterMap Decl.typeName? :=
    filterMap_eq_of_forall₂ hk fun _ _ k => k.typeName
  have hwait : es.filterMap Decl.waitKey? = ds.filterMap Decl.waitKey? :=
    filterMap_eq_of_forall₂ hk fun _ _ k => k.waitKey
  have hfirst : es.map Decl.isUse = ds.map Decl.isUse :=
    map_eq_of_forall₂ hk fun x y k => by rw [Decl.isUse_eq, Decl.isUse_eq, k.use]
  refine ⟨?_, huses ▸ h.usesDistinct, htypes ▸ h.typesDistinct, ?_, hwait ▸ h.waitersDistinct, ?_⟩
  · have := h.usesFirst
    rw [← List.pairwise_map (R := fun a b : Bool => b → a)] at this ⊢
    rw [hfirst]
    exact this
  · rw [waitersHomeless_iff, hwait, htypes]
    exact waitersHomeless_iff.mp h.waitersHomeless
  · have hall := h.blocksDistinct
    clear huses htypes hwait hfirst h
    induction hk with
    | nil => simp
    | cons hd _ ih =>
        intro e he
        rcases List.mem_cons.mp he with rfl | he
        · exact hd.traits (hall _ List.mem_cons_self)
        · exact ih (fun x hx => hall x (List.mem_cons_of_mem _ hx)) e he

/-! ### Appending a declaration -/

/-- What a list must not hold for a declaration to be appended to it. -/
structure Fresh (ds : List Decl) (d : Decl) : Prop where
  notUse : d.isUse = false
  /-- a type is new, and nothing waits for it -/
  type : ∀ name, d.typeName? = some name →
    name ∉ ds.filterMap Decl.typeName? ∧ ∀ i, Decl.impl i ∈ ds → i.self ≠ name
  /-- a waiting block has neither its type nor its like there -/
  waiter : ∀ i, d = .impl i →
    i.self ∉ ds.filterMap Decl.typeName? ∧ (i.self, i.traitKey) ∉ ds.filterMap Decl.waitKey?
  traits : d.TraitsDistinct

theorem use?_eq_none {d : Decl} (h : d.isUse = false) : d.use? = none := by
  rw [Decl.isUse_eq] at h
  exact Option.isSome_eq_false_iff.mp h |> Option.isNone_iff_eq_none.mp

theorem Tidy.append {d : Decl} (h : Tidy ds) (hd : Fresh ds d) : Tidy (ds ++ [d]) where
  usesFirst := by
    refine List.pairwise_append.mpr ⟨h.usesFirst, List.pairwise_singleton _ _, ?_⟩
    intro a _ b hb hu
    rw [List.mem_singleton.mp hb, hd.notUse] at hu
    cases hu
  usesDistinct := by
    have hn := use?_eq_none hd.notUse
    simpa [List.filterMap_append, hn] using h.usesDistinct
  typesDistinct := by
    rw [List.filterMap_append]
    cases hn : d.typeName? with
    | none => simpa [hn] using h.typesDistinct
    | some name =>
        have hnew := (hd.type name hn).1
        simp only [List.filterMap_cons, hn, List.filterMap_nil]
        exact h.typesDistinct.append (List.nodup_singleton _) (List.disjoint_singleton.mpr hnew)
  waitersHomeless := by
    intro i hi hmem
    rw [List.filterMap_append, List.mem_append] at hmem
    rcases List.mem_append.mp hi with hi | hi
    · rcases hmem with hmem | hmem
      · exact h.waitersHomeless i hi hmem
      · obtain ⟨x, hx, hname⟩ := List.mem_filterMap.mp hmem
        rw [List.mem_singleton.mp hx] at hname
        exact (hd.type _ hname).2 i hi rfl
    · rw [List.mem_singleton] at hi
      rcases hmem with hmem | hmem
      · exact (hd.waiter i hi.symm).1 hmem
      · simp [← hi, Decl.typeName?] at hmem
  waitersDistinct := by
    rw [List.filterMap_append]
    cases d with
    | impl i =>
        have hnew := (hd.waiter i rfl).2
        exact h.waitersDistinct.append (List.nodup_singleton _) (List.disjoint_singleton.mpr hnew)
    | _ => simpa [List.filterMap_cons, Decl.waitKey?] using h.waitersDistinct
  blocksDistinct := by
    intro x hx
    rcases List.mem_append.mp hx with hx | hx
    · exact h.blocksDistinct x hx
    · rw [List.mem_singleton.mp hx]
      exact hd.traits

/-! ### Inserting an import -/

theorem insertUse_perm (u : Use) (ds : List Decl) : (insertUse u ds).Perm (.use u :: ds) := by
  induction ds with
  | nil => exact .refl _
  | cons d ds ih =>
      unfold insertUse
      split
      · exact (ih.cons d).trans (.swap _ _ _)
      · exact .refl _

theorem usesFirst_insertUse (u : Use) (h : ds.Pairwise fun a b => b.isUse → a.isUse) :
    (insertUse u ds).Pairwise fun a b => b.isUse → a.isUse := by
  induction ds with
  | nil => exact List.pairwise_singleton _ _
  | cons d ds ih =>
      obtain ⟨hd, hds⟩ := List.pairwise_cons.mp h
      unfold insertUse
      split
      · next hlater =>
          -- an import further down makes `d` one as well
          have hdu : d.isUse = true := by
            rcases Bool.or_eq_true_iff.mp hlater with hdu | hany
            · exact hdu
            · obtain ⟨x, hx, hxu⟩ := List.any_eq_true.mp hany
              exact hd x hx hxu
          exact List.pairwise_cons.mpr ⟨fun _ _ _ => hdu, ih hds⟩
      · exact List.pairwise_cons.mpr ⟨fun _ _ _ => rfl, h⟩

theorem hasUse_iff {u : Use} : hasUse u ds = true ↔ u ∈ ds.filterMap Decl.use? := by
  unfold hasUse
  rw [List.any_eq_true, List.mem_filterMap]
  constructor
  · rintro ⟨d, hd, hu⟩
    cases d with
    | use v => exact ⟨.use v, hd, congrArg some (beq_iff_eq.mp hu)⟩
    | _ => cases hu
  · rintro ⟨d, hd, hu⟩
    cases d with
    | use v => exact ⟨.use v, hd, beq_iff_eq.mpr (Option.some.inj hu)⟩
    | _ => cases hu

theorem Tidy.insertUse {u : Use} (h : Tidy ds) (hu : hasUse u ds = false) :
    Tidy (insertUse u ds) := by
  have hperm := insertUse_perm u ds
  have htypes : (Module.insertUse u ds).filterMap Decl.typeName? |>.Perm
      (ds.filterMap Decl.typeName?) := hperm.filterMap _
  have hwait : (Module.insertUse u ds).filterMap Decl.waitKey? |>.Perm
      (ds.filterMap Decl.waitKey?) := hperm.filterMap _
  refine ⟨usesFirst_insertUse u h.usesFirst, ?_, htypes.nodup_iff.mpr h.typesDistinct, ?_,
    hwait.nodup_iff.mpr h.waitersDistinct, ?_⟩
  · have hnew : u ∉ ds.filterMap Decl.use? := by rw [← hasUse_iff, hu]; exact Bool.false_ne_true
    exact (hperm.filterMap Decl.use?).nodup_iff.mpr (List.nodup_cons.mpr ⟨hnew, h.usesDistinct⟩)
  · rw [waitersHomeless_iff]
    intro k hk
    rw [htypes.mem_iff]
    exact waitersHomeless_iff.mp h.waitersHomeless k (hwait.mem_iff.mp hk)
  · intro d hd
    rcases List.mem_cons.mp (hperm.mem_iff.mp hd) with rfl | hd
    · exact List.nodup_nil
    · exact h.blocksDistinct d hd

/-! ### What a push can do -/

/-- A push is accepted, or it is refused for a clash of kinds and leaves the declarations as they
were. -/
theorem pushDecl_cases (ds : List Decl) (d : Decl) :
    (∃ es, pushDecl ds d = (es, .ok ())) ∨
      ∃ f, pushDecl ds d = (ds, .error f) ∧ f.cause = .kindClash := by
  have htype (n : Ident) (blocks : List Impl) :
      (∃ es, pushType ds n d blocks = (es, .ok ())) ∨
        ∃ f, pushType ds n d blocks = (ds, .error f) ∧ f.cause = .kindClash := by
    unfold pushType
    split
    · exact .inl ⟨_, rfl⟩
    · split
      · exact .inl ⟨_, rfl⟩
      · exact .inr ⟨_, rfl, rfl⟩
  cases d with
  | struct s => exact htype s.name s.impls
  | enum e => exact htype e.name e.impls
  | _ => exact .inl ⟨_, rfl⟩

theorem push_cases (m : Module) (d : Decl) :
    (∃ ds, pushDecl m.decls d = (ds, .ok ()) ∧ m.push d = ({ m with decls := ds }, .ok ())) ∨
      ∃ f, m.push d = (m, .error f) ∧ f.cause = .kindClash := by
  unfold push
  rcases pushDecl_cases m.decls d with ⟨ds, hds⟩ | ⟨f, hf, hcause⟩
  · exact .inl ⟨ds, hds, by rw [hds]⟩
  · exact .inr ⟨f, by rw [hf], hcause⟩

theorem push_eq_ok_iff {m m' : Module} {d : Decl} :
    m.push d = (m', .ok ()) ↔
      ∃ ds, pushDecl m.decls d = (ds, .ok ()) ∧ { m with decls := ds } = m' := by
  constructor
  · intro h
    obtain ⟨ds, hds, hpush⟩ | ⟨f, hpush, -⟩ := push_cases m d
    · exact ⟨ds, hds, (Prod.mk.inj (hpush.symm.trans h)).1⟩
    · cases (Prod.mk.inj (hpush.symm.trans h)).2
  · rintro ⟨ds, hds, rfl⟩
    rw [push, hds]

theorem pushAll_cons_of_ok {m m' : Module} {d : Decl} (h : m.push d = (m', .ok ())) :
    m.pushAll (d :: ds) = m'.pushAll ds := by
  rw [pushAll, h]

theorem pushAll_cons_of_error {m m' : Module} {d : Decl} {f : Failure}
    (h : m.push d = (m', .error f)) :
    m.pushAll (d :: ds) = (m', .error f) := by
  rw [pushAll, h]

/-! ### Every push -/

theorem typeDecl?_eq_none_iff {name : Ident} :
    typeDecl? ds name = none ↔ name ∉ ds.filterMap Decl.typeName? := by
  simp [typeDecl?, declares, List.find?_eq_none, List.mem_filterMap]

/-- A new type is appended to what does not wait for it. -/
theorem Tidy.appendType {d : Decl} {name : Ident} (h : Tidy ds) (hname : d.typeName? = some name)
    (hnew : typeDecl? ds name = none) (ht : d.TraitsDistinct) : Tidy (appendType ds name d) := by
  have hk := d.keeps_attachAll (ds.filterMap (waiting? name))
  have hname' := hk.typeName.trans hname
  refine (h.filter _).append ⟨?_, ?_, ?_, hk.traits ht⟩
  · rw [Decl.isUse_eq, Decl.use?_of_typeName? hname']
    rfl
  · intro n hn
    obtain rfl : name = n := Option.some.inj (hname'.symm.trans hn)
    refine ⟨fun hmem => ?_, fun i hi hself => ?_⟩
    · exact typeDecl?_eq_none_iff.mp hnew ((List.filter_sublist.filterMap _).subset hmem)
    · have := (List.mem_filter.mp hi).2
      simp [waiting?, hself] at this
  · intro i hi
    rw [hi] at hname'
    cases hname'

theorem Tidy.attachTo (h : Tidy ds) (name : Ident) (blocks : List Impl) :
    Tidy (attachTo ds name blocks) :=
  h.of_keeps (forall₂_modifyFirst Decl.Keeps.refl (fun d _ => d.keeps_attachAll blocks) ds)

theorem Tidy.pushImpl (h : Tidy ds) (i : Impl) : Tidy (pushImpl ds i) := by
  unfold Module.pushImpl
  split
  · exact h.attachTo _ _
  · next hno =>
      have hnone := typeDecl?_eq_none_iff.mp (Option.not_isSome_iff_eq_none.mp hno)
      split
      · refine h.of_keeps (forall₂_modifyFirst Decl.Keeps.refl ?_ ds)
        intro d _
        cases d with
        | impl j => exact ⟨rfl, rfl, by simp [Decl.waitKey?], fun _ => List.nodup_nil⟩
        | _ => exact Decl.Keeps.refl _
      · next hlike =>
          refine h.append ⟨rfl, fun _ hn => (nomatch hn), ?_, List.nodup_nil⟩
          rintro _ ⟨⟩
          refine ⟨hnone, fun hmem => hlike ?_⟩
          obtain ⟨j, hj, hkey⟩ := mem_waitKeys.mp hmem
          obtain ⟨hself, htrait⟩ := Prod.mk.inj hkey
          exact List.any_eq_true.mpr ⟨.impl j, hj, by simp [waitsLike, hself, htrait]⟩

theorem Tidy.pushType {d : Decl} {name : Ident} {blocks : List Impl} (h : Tidy ds)
    (hname : d.typeName? = some name) (ht : d.TraitsDistinct) :
    Tidy (pushType ds name d blocks).1 := by
  unfold Module.pushType
  split
  · next hnew => exact h.appendType hname hnew ht
  · split
    · exact h.attachTo _ _
    · exact h

/-- A push keeps the declarations tidy, whether it is refused or not. -/
theorem Tidy.pushDecl {d : Decl} {result : Except Failure Unit} (h : Tidy ds)
    (ht : d.TraitsDistinct) (hp : pushDecl ds d = (es, result)) : Tidy es := by
  obtain rfl : (Module.pushDecl ds d).1 = es := congrArg Prod.fst hp
  clear hp
  cases d with
  | use u =>
      show Tidy (if hasUse u ds then ds else Module.insertUse u ds)
      split
      · exact h
      · next hu => exact h.insertUse (Bool.eq_false_iff.mpr hu)
  | struct s => exact h.pushType rfl ht
  | enum e => exact h.pushType rfl ht
  | impl i => exact h.pushImpl i
  | func f =>
      exact h.append ⟨rfl, fun _ hn => (nomatch hn), fun _ hi => (nomatch hi), List.nodup_nil⟩
  | verbatim text =>
      exact h.append ⟨rfl, fun _ hn => (nomatch hn), fun _ hi => (nomatch hi), List.nodup_nil⟩

end Module
end ClientLoom
