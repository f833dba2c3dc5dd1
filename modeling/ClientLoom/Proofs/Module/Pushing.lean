import Mathlib.Data.List.Induction
import ClientLoom.Proofs.Module.MergeOrder
import ClientLoom.Proofs.Module.WellFormed

/-! # Pushing declarations one after another

What a single push can do is said once (`Pushed`); its effect on kinds is read off there.
`Makes items ds` says that `ds` is what comes of pushing `items` in order, starting with nothing.
Such runs are taken apart at their last push (`Makes.induction`).

The kinds under which a name is declared as a type (`kindsOf`) change with a push only when the
name is new (`kindsOf_pushDecl`), so a run keeps the kind of the first declaration of a name
(`Makes.kindsOf_eq`), and it is possible exactly when no name is declared both as a struct and as
an enum (`exists_makes_iff`).  Merging is such a run over the declarations of all parts in their
order (`merge_eq_ok_iff`). -/

namespace ClientLoom
namespace Module

variable {ds es items : List Decl} {d : Decl}

/-! ### One push -/

/-- What a push makes of the declarations that are there, by what they hold already. -/
inductive Pushed (ds : List Decl) : Decl → List Decl → Prop
  | useAgain {u : Use} (hu : hasUse u ds = true) : Pushed ds (.use u) ds
  | useNew {u : Use} (hu : hasUse u ds = false) : Pushed ds (.use u) (insertUse u ds)
  | typeNew {d : Decl} {n : Ident} (hd : d.typeName? = some n) (hnew : typeDecl? ds n = none) :
      Pushed ds d (appendType ds n d)
  | typeAgain {d old : Decl} {n : Ident} (hd : d.typeName? = some n)
      (hold : typeDecl? ds n = some old) (hkind : old.kind = d.kind) :
      Pushed ds d (attachTo ds n d.impls)
  | impl (i : Impl) : Pushed ds (.impl i) (pushImpl ds i)
  | func (f : Func) : Pushed ds (.func f) (ds ++ [.func f])
  | verbatim (text : String) : Pushed ds (.verbatim text) (ds ++ [.verbatim text])

theorem pushed_of_pushDecl (h : pushDecl ds d = (es, .ok ())) : Pushed ds d es := by
  have htype {n : Ident} (hd : d.typeName? = some n)
      (hp : pushType ds n d d.impls = (es, .ok ())) : Pushed ds d es := by
    unfold pushType at hp
    split at hp
    · next hnew =>
        obtain ⟨rfl, -⟩ := Prod.mk.inj hp
        exact .typeNew hd hnew
    · next old hold =>
        split at hp
        · next hkind =>
            obtain ⟨rfl, -⟩ := Prod.mk.inj hp
            exact .typeAgain hd hold hkind
        · cases (Prod.mk.inj hp).2
  cases d with
  | use u =>
      obtain ⟨rfl, -⟩ := Prod.mk.inj h
      cases hu : hasUse u ds with
      | true => exact .useAgain hu
      | false => exact .useNew hu
  | struct s => exact htype rfl h
  | enum e => exact htype rfl h
  | impl i => exact (Prod.mk.inj h).1 ▸ .impl i
  | func f => exact (Prod.mk.inj h).1 ▸ .func f
  | verbatim text => exact (Prod.mk.inj h).1 ▸ .verbatim text

/-! ### Runs -/

/-- The declarations that a push leaves when it is accepted. -/
def accepted (ds : List Decl) (d : Decl) : Except Failure (List Decl) := settled (pushDecl ds d)

theorem accepted_eq_ok_iff : accepted ds d = .ok es ↔ pushDecl ds d = (es, .ok ()) :=
  settled_eq_ok_iff

/-- Pushing `items` in order to nothing gives `ds`. -/
def Makes (items ds : List Decl) : Prop := items.foldlM accepted [] = .ok ds

theorem makes_nil : Makes [] [] := rfl

theorem makes_append_iff {more : List Decl} :
    Makes (items ++ more) es ↔ ∃ ds, Makes items ds ∧ more.foldlM accepted ds = .ok es := by
  unfold Makes
  rw [List.foldlM_append, bind_eq_ok_iff]

theorem makes_concat_iff :
    Makes (items ++ [d]) es ↔ ∃ ds, Makes items ds ∧ pushDecl ds d = (es, .ok ()) := by
  rw [makes_append_iff]
  simp only [List.foldlM_cons, List.foldlM_nil, bind_pure, accepted_eq_ok_iff]

/-- What holds of nothing and is kept by every push holds of every run. -/
theorem Makes.induction {P : List Decl → List Decl → Prop} (nil : P [] [])
    (concat : ∀ items ds d es, Makes items ds → P items ds → pushDecl ds d = (es, .ok ()) →
      P (items ++ [d]) es)
    (h : Makes items ds) : P items ds := by
  induction items using List.reverseRecOn generalizing ds with
  | nil =>
      obtain rfl := Except.ok.inj h
      exact nil
  | append_singleton items d ih =>
      obtain ⟨ds₀, h₀, hd⟩ := makes_concat_iff.mp h
      exact concat items ds₀ d ds h₀ (ih h₀) hd

theorem Makes.unique (h : Makes items ds) (h' : Makes items es) : ds = es :=
  Except.ok.inj (h.symm.trans h')

theorem pushAll_eq_ok_iff {m m' : Module} :
    m.pushAll items = (m', .ok ()) ↔
      ∃ ds, items.foldlM accepted m.decls = .ok ds ∧ { m with decls := ds } = m' := by
  induction items generalizing m with
  | nil =>
      constructor
      · intro h
        exact ⟨m.decls, rfl, (Prod.mk.inj h).1⟩
      · rintro ⟨ds, hds, rfl⟩
        obtain rfl := Except.ok.inj hds
        rfl
  | cons d items ih =>
      simp only [List.foldlM_cons, bind_eq_ok_iff, accepted_eq_ok_iff]
      rcases push_cases m d with ⟨ds, hds, hpush⟩ | ⟨f, hpush, -⟩
      · rw [pushAll_cons_of_ok hpush, ih]
        constructor
        · rintro ⟨es, hes, rfl⟩
          exact ⟨es, ⟨ds, hds, hes⟩, rfl⟩
        · rintro ⟨es, ⟨ds', hds', hes⟩, rfl⟩
          obtain ⟨rfl, -⟩ := Prod.mk.inj (hds.symm.trans hds')
          exact ⟨es, hes, rfl⟩
      · rw [pushAll_cons_of_error hpush]
        constructor
        · intro h
          cases (Prod.mk.inj h).2
        · rintro ⟨_, ⟨ds, hds, -⟩, -⟩
          cases (Prod.mk.inj ((push_eq_ok_iff.mpr ⟨ds, hds, rfl⟩).symm.trans hpush)).2

/-- A refused declaration ends a sequence of pushes with what was there before it. -/
theorem pushAll_of_push_eq_error {m₀ m : Module} {before : List Decl} {d : Decl} {f : Failure}
    (hm : m₀.pushAll before = (m, .ok ())) (h : m.push d = (m, .error f)) (rest : List Decl) :
    m₀.pushAll (before ++ d :: rest) = (m, .error f) := by
  induction before generalizing m₀ with
  | nil =>
      obtain ⟨rfl, -⟩ := Prod.mk.inj hm
      exact pushAll_cons_of_error h
  | cons x before ih =>
      rcases push_cases m₀ x with ⟨ds, -, hx⟩ | ⟨g, hx, -⟩
      · rw [pushAll_cons_of_ok hx] at hm
        rw [List.cons_append, pushAll_cons_of_ok hx]
        exact ih hm
      · rw [pushAll_cons_of_error hx] at hm
        cases (Prod.mk.inj hm).2

/-! ### Kinds of types -/

/-- The kind of a declaration of the type called `name`. -/
def kindIf (name : Ident) (d : Decl) : Option Kind :=
  if d.typeName? = some name then some d.kind else none

/-- The kinds under which a name is declared as a type, in order. -/
def kindsOf (ds : List Decl) (name : Ident) : List Kind := ds.filterMap (kindIf name)

variable {name : Ident}

theorem mem_kindsOf {k : Kind} :
    k ∈ kindsOf ds name ↔ ∃ d ∈ ds, d.typeName? = some name ∧ d.kind = k := by
  simp [kindsOf, kindIf]

theorem kindsOf_append : kindsOf (ds ++ es) name = kindsOf ds name ++ kindsOf es name :=
  List.filterMap_append

theorem kindsOf_singleton : kindsOf [d] name = (kindIf name d).toList := by
  unfold kindsOf
  cases h : kindIf name d <;> simp [h]

theorem kindIf_of_typeName?_eq_none (h : d.typeName? = none) : kindIf name d = none := by
  simp [kindIf, h]

theorem kindIf_mapImpls (f : List Impl → List Impl) :
    kindIf name (d.mapImpls f) = kindIf name d := by
  cases d <;> rfl

theorem declares_iff : declares name d = true ↔ d.typeName? = some name := beq_iff_eq

theorem typeDecl?_eq_none_iff_kindsOf : typeDecl? ds name = none ↔ kindsOf ds name = [] := by
  rw [typeDecl?, List.find?_eq_none, kindsOf, List.filterMap_eq_nil_iff]
  simp only [declares_iff, kindIf, ite_eq_right_iff, reduceCtorEq, imp_false]

theorem kind_typeDecl? : (typeDecl? ds name).map Decl.kind = (kindsOf ds name).head? := by
  unfold typeDecl? kindsOf
  rw [List.head?_filterMap]
  induction ds with
  | nil => rfl
  | cons d ds ih =>
      by_cases h : d.typeName? = some name
      · simp [declares, kindIf, h]
      · simpa [declares, kindIf, h] using ih

theorem kindsOf_insertUse (u : Use) : kindsOf (insertUse u ds) name = kindsOf ds name := by
  unfold kindsOf
  induction ds with
  | nil => rfl
  | cons d ds ih =>
      unfold insertUse
      split
      · rw [List.filterMap_cons, List.filterMap_cons, ih]
      · rw [List.filterMap_cons_none (kindIf_of_typeName?_eq_none rfl)]

theorem kindsOf_modifyFirst {p : Decl → Bool} {f : Decl → Decl}
    (h : ∀ d, kindIf name (f d) = kindIf name d) :
    kindsOf (modifyFirst p f ds) name = kindsOf ds name :=
  filterMap_eq_of_forall₂
    (forall₂_modifyFirst (R := fun d e => kindIf name e = kindIf name d) (fun _ => rfl)
      (fun d _ => h d) ds)
    fun _ _ h => h

theorem kindsOf_attachTo (other : Ident) (blocks : List Impl) :
    kindsOf (attachTo ds other blocks) name = kindsOf ds name :=
  kindsOf_modifyFirst fun _ => kindIf_mapImpls _

theorem kindsOf_appendType (other : Ident) :
    kindsOf (appendType ds other d) name = kindsOf ds name ++ (kindIf name d).toList := by
  have hstay : kindsOf (ds.filter fun x => (waiting? other x).isNone) name = kindsOf ds name := by
    unfold kindsOf
    rw [List.filterMap_filter]
    congr 1
    funext d
    cases d with
    | impl i => rw [kindIf_of_typeName?_eq_none rfl, ite_self]
    | _ => rfl
  rw [appendType, kindsOf_append, kindsOf_singleton, kindIf_mapImpls, hstay]

theorem kindsOf_pushImpl (i : Impl) : kindsOf (pushImpl ds i) name = kindsOf ds name := by
  unfold pushImpl
  split
  · exact kindsOf_attachTo _ _
  split
  · refine kindsOf_modifyFirst fun d => ?_
    cases d <;> rfl
  · rw [kindsOf_append, kindsOf_singleton, kindIf_of_typeName?_eq_none rfl, Option.toList_none,
      List.append_nil]

/-- A push declares a name that is new and leaves the kinds of all other names alone. -/
theorem kindsOf_pushDecl (h : pushDecl ds d = (es, .ok ())) (name : Ident) :
    kindsOf es name =
      if kindsOf ds name = [] then (kindIf name d).toList else kindsOf ds name := by
  have hnone (hd : kindIf name d = none) (hsame : kindsOf es name = kindsOf ds name) :
      kindsOf es name =
        if kindsOf ds name = [] then (kindIf name d).toList else kindsOf ds name := by
    rw [hsame, hd]
    split
    · assumption
    · rfl
  have hother {n : Ident} (hd : d.typeName? = some n) (hne : name ≠ n) : kindIf name d = none := by
    simp [kindIf, hd, Ne.symm hne]
  cases pushed_of_pushDecl h with
  | useAgain _ => exact hnone (kindIf_of_typeName?_eq_none rfl) rfl
  | useNew _ => exact hnone (kindIf_of_typeName?_eq_none rfl) (kindsOf_insertUse _)
  | @typeNew _ n hd hnew =>
      by_cases hname : name = n
      · rw [kindsOf_appendType, hname, typeDecl?_eq_none_iff_kindsOf.mp hnew, List.nil_append,
          if_pos rfl]
      · refine hnone (hother hd hname) ?_
        rw [kindsOf_appendType, hother hd hname, Option.toList_none, List.append_nil]
  | @typeAgain _ _ n hd hold _ =>
      by_cases hname : name = n
      · have hdeclared : kindsOf ds name ≠ [] := by
          rw [hname, Ne, ← typeDecl?_eq_none_iff_kindsOf, hold]
          exact Option.some_ne_none _
        rw [kindsOf_attachTo, if_neg hdeclared]
      · exact hnone (hother hd hname) (kindsOf_attachTo _ _)
  | impl i => exact hnone (kindIf_of_typeName?_eq_none rfl) (kindsOf_pushImpl i)
  | func _ | verbatim _ =>
      refine hnone (kindIf_of_typeName?_eq_none rfl) ?_
      rw [kindsOf_append, kindsOf_singleton, kindIf_of_typeName?_eq_none rfl, Option.toList_none,
        List.append_nil]

/-- A run keeps of every name the kind it is declared with first. -/
theorem Makes.kindsOf_eq (h : Makes items ds) (name : Ident) :
    kindsOf ds name = (kindsOf items name).take 1 := by
  refine h.induction (P := fun items ds => kindsOf ds name = (kindsOf items name).take 1) rfl ?_
  intro items ds d es _ ih hd
  rw [kindsOf_pushDecl hd, ih, kindsOf_append, kindsOf_singleton]
  cases kindsOf items name with
  | nil =>
      cases kindIf name d <;> rfl
  | cons k ks => simp

/-! ### When a run is possible -/

/-- A push is refused only to a type whose name has another kind. -/
theorem exists_pushDecl_iff :
    (∃ es, pushDecl ds d = (es, .ok ())) ↔
      ∀ name, d.typeName? = some name → ∀ k ∈ (kindsOf ds name).head?, k = d.kind := by
  have hfree (hd : d.typeName? = none) (hok : ∃ es, pushDecl ds d = (es, .ok ())) :
      (∃ es, pushDecl ds d = (es, .ok ())) ↔
        ∀ name, d.typeName? = some name → ∀ k ∈ (kindsOf ds name).head?, k = d.kind := by
    simp [hd, hok]
  have htype {n : Ident} {blocks : List Impl} (hd : d.typeName? = some n) :
      (∃ es, pushType ds n d blocks = (es, .ok ())) ↔
        ∀ name, d.typeName? = some name → ∀ k ∈ (kindsOf ds name).head?, k = d.kind := by
    simp only [hd, Option.some.injEq, forall_eq', ← kind_typeDecl?]
    unfold pushType
    cases typeDecl? ds n with
    | none => simp
    | some old => by_cases hk : old.kind = d.kind <;> simp [hk]
  cases d with
  | struct s => exact htype rfl
  | enum e => exact htype rfl
  | _ => exact hfree rfl ⟨_, rfl⟩

/-- No name is declared both as a struct and as an enum. -/
def KindsAgree (items : List Decl) : Prop :=
  ∀ s e, Decl.struct s ∈ items → Decl.enum e ∈ items → s.name ≠ e.name

theorem kindsAgree_iff :
    KindsAgree items ↔ ∀ name, ∀ k ∈ kindsOf items name, ∀ k' ∈ kindsOf items name, k = k' := by
  simp only [mem_kindsOf]
  constructor
  · rintro h name _ ⟨d, hd, hname, rfl⟩ _ ⟨d', hd', hname', rfl⟩
    cases d with
    | struct s =>
        cases d' with
        | struct _ => rfl
        | enum e =>
            exact absurd (Option.some.inj (hname.trans hname'.symm)) (h s e hd hd')
        | _ => cases hname'
    | enum e =>
        cases d' with
        | struct s =>
            exact absurd (Option.some.inj (hname'.trans hname.symm)) (h s e hd' hd)
        | enum _ => rfl
        | _ => cases hname'
    | _ => cases hname
  · intro h s e hs he hname
    have := h s.name .struct ⟨_, hs, rfl, rfl⟩ .enum ⟨_, he, congrArg some hname.symm, rfl⟩
    cases this

theorem KindsAgree.sublist (h : KindsAgree items) (hs : es.Sublist items) : KindsAgree es :=
  fun s e hmem hmem' => h s e (hs.subset hmem) (hs.subset hmem')

theorem kindsAgree_concat_iff :
    KindsAgree (items ++ [d]) ↔
      KindsAgree items ∧
        ∀ name, d.typeName? = some name → ∀ k ∈ kindsOf items name, k = d.kind := by
  simp only [kindsAgree_iff, kindsOf_append, kindsOf_singleton, List.mem_append,
    Option.mem_toList]
  unfold kindIf
  constructor
  · intro h
    refine ⟨fun name k hk k' hk' => h name k (.inl hk) k' (.inl hk'), fun name hname k hk => ?_⟩
    exact h name k (.inl hk) d.kind (.inr (by simp [hname]))
  · rintro ⟨h, hd⟩ name k hk k' hk'
    by_cases hname : d.typeName? = some name
    · simp only [hname, if_true, Option.some.injEq] at hk hk'
      rcases hk with hk | rfl <;> rcases hk' with hk' | rfl
      · exact h name k hk k' hk'
      · exact hd name hname k hk
      · exact (hd name hname k' hk').symm
      · rfl
    · simp only [hname, if_false, reduceCtorEq, or_false] at hk hk'
      exact h name k hk k' hk'

/-- A sequence of declarations can be pushed exactly when the kinds of its types agree. -/
theorem exists_makes_iff : (∃ ds, Makes items ds) ↔ KindsAgree items := by
  induction items using List.reverseRecOn with
  | nil => exact ⟨fun _ _ _ h => (nomatch h), fun _ => ⟨[], makes_nil⟩⟩
  | append_singleton items d ih =>
      rw [kindsAgree_concat_iff, ← ih]
      simp only [makes_concat_iff]
      constructor
      · rintro ⟨es, ds, hds, hd⟩
        refine ⟨⟨ds, hds⟩, fun name hname k hk => ?_⟩
        have hall := kindsAgree_iff.mp (ih.mp ⟨ds, hds⟩)
        have hhead := exists_pushDecl_iff.mp ⟨es, hd⟩ name hname
        rw [hds.kindsOf_eq] at hhead
        cases hks : kindsOf items name with
        | nil => simp [hks] at hk
        | cons k₀ ks =>
            rw [hks] at hhead
            rw [hall name k hk k₀ (by simp [hks])]
            exact hhead k₀ rfl
      · rintro ⟨⟨ds, hds⟩, hd⟩
        have hok : ∃ es, pushDecl ds d = (es, .ok ()) := by
          refine exists_pushDecl_iff.mpr fun name hname k hk => hd name hname k ?_
          rw [hds.kindsOf_eq] at hk
          exact List.mem_of_mem_take (List.mem_of_mem_head? hk)
        obtain ⟨es, hes⟩ := hok
        exact ⟨es, ds, hds, hes⟩

/-- A name that is declared as a type is declared once afterwards, with the same kind. -/
theorem Makes.kindsOf_of_mem (h : Makes items ds) (hd : d ∈ items)
    (hname : d.typeName? = some name) : kindsOf ds name = [d.kind] := by
  have hagree := kindsAgree_iff.mp (exists_makes_iff.mp ⟨ds, h⟩) name
  have hmem : d.kind ∈ kindsOf items name := mem_kindsOf.mpr ⟨d, hd, hname, rfl⟩
  rw [h.kindsOf_eq]
  cases hks : kindsOf items name with
  | nil => simp [hks] at hmem
  | cons k ks =>
      rw [hagree k (by simp [hks]) d.kind hmem]
      rfl

theorem Makes.mem_kindsOf_iff {k : Kind} (h : Makes items ds) :
    k ∈ kindsOf ds name ↔ k ∈ kindsOf items name := by
  constructor
  · rw [h.kindsOf_eq]
    exact List.mem_of_mem_take
  · intro hk
    obtain ⟨d, hd, hname, rfl⟩ := mem_kindsOf.mp hk
    rw [h.kindsOf_of_mem hd hname]
    exact List.mem_singleton_self _

/-! ### Merging -/

theorem addPart_eq_ok_iff {m m' part : Module} :
    m.addPart part = .ok m' ↔
      ∃ ds, part.decls.foldlM accepted m.decls = .ok ds ∧
        { m with attrs := m.attrs ++ part.attrs, decls := ds } = m' := by
  rw [addPart, locate_eq_ok_iff, settled_eq_ok_iff, pushAll_eq_ok_iff]

theorem foldlM_addPart_eq_ok_iff {parts : List Module} {m m' : Module} :
    parts.foldlM addPart m = .ok m' ↔
      ∃ ds, (parts.flatMap Module.decls).foldlM accepted m.decls = .ok ds ∧
        { m with attrs := m.attrs ++ parts.flatMap Module.attrs, decls := ds } = m' := by
  induction parts generalizing m with
  | nil =>
      simp only [List.flatMap_nil, List.append_nil]
      constructor
      · intro h
        exact ⟨m.decls, rfl, Except.ok.inj h⟩
      · rintro ⟨ds, hds, rfl⟩
        obtain rfl := Except.ok.inj hds
        rfl
  | cons part parts ih =>
      simp only [List.foldlM_cons, List.flatMap_cons, List.foldlM_append, bind_eq_ok_iff, ih,
        addPart_eq_ok_iff, ← List.append_assoc]
      constructor
      · rintro ⟨_, ⟨ds, hds, rfl⟩, es, hes, rfl⟩
        exact ⟨es, ⟨ds, hds, hes⟩, rfl⟩
      · rintro ⟨es, ⟨ds, hds, hes⟩, rfl⟩
        exact ⟨_, ⟨ds, hds, rfl⟩, es, hes, rfl⟩

/-- Parts of increasing origins are merged in the order in which they are listed. -/
theorem mergeSort_of_origins {parts : List Module}
    (h : parts.Pairwise fun p q => Text.rank p.origin < Text.rank q.origin) :
    parts.mergeSort comesBefore = parts :=
  InOrder.mergeSort_eq (h.imp fun hlt => comesBefore_iff.mpr (.inl hlt))

/-- Merging parts of one name pushes their declarations in the order of the parts. -/
theorem merge_eq_ok_iff {parts : List Module} {m : Module} (hne : parts ≠ [])
    (hname : ∀ p ∈ parts, p.name = name) :
    merge parts = .ok m ↔
      ∃ ds, Makes ((parts.mergeSort comesBefore).flatMap Module.decls) ds ∧
        { name := name
          origin := soleOrigin parts
          attrs := (parts.mergeSort comesBefore).flatMap Module.attrs
          decls := ds } = m := by
  rw [merge_eq_assemble hne hname, assemble, foldlM_addPart_eq_ok_iff,
    soleOrigin_perm (List.mergeSort_perm parts _)]
  rfl

end Module
end ClientLoom
