import ClientLoom.Proofs.Module.Attaching
import ClientLoom.Proofs.Module.Outline

/-! # Replaying a module

Pushing the declarations of a tidy list one by one gives the list back: every push appends
(`pushDecl_of_tidy`, `makes_self`).  It is enough that the outline is tidy, and that is so after
every run, so a merged module can be merged once more in the place of its parts.

Main statement: merging parts, and then the result with parts of later origins, is merging all of
them at once (`merge_cons_eq_ok_iff`).  The merged module has lost its origin when it had several
parts, and goes first all the same, since no origin comes before the empty one. -/

namespace ClientLoom
namespace Module

variable {ds items : List Decl} {d : Decl} {name : Ident} {m m' : Module}
  {done rest parts : List Module}

/-! ### Pushing what is there already -/

theorem insertUse_of_all {u : Use} (h : ∀ d ∈ ds, d.isUse = true) :
    insertUse u ds = ds ++ [.use u] := by
  have hnil : ∀ d ∈ ([] : List Decl), d.isUse = false := by simp
  have := insertUse_append u h hnil
  rwa [List.append_nil] at this

theorem waiting?_eq_none (h : ∀ i, Decl.impl i ∈ ds → i.self ≠ name) (hd : d ∈ ds) :
    waiting? name d = none := by
  cases d with
  | impl i => simp [waiting?, h i hd]
  | _ => rfl

/-- A type whose name is new and for which nothing waits is appended as it is. -/
theorem pushType_of_fresh (hnew : name ∉ typeNames ds)
    (hwait : ∀ i, Decl.impl i ∈ ds → i.self ≠ name) (blocks : List Impl) :
    pushType ds name d blocks = (ds ++ [d], .ok ()) := by
  have hnone : typeDecl? ds name = none := by
    rw [← Option.not_isSome_iff_eq_none, isSome_typeDecl?]
    exact hnew
  have hkeep : ds.filter (fun x => (waiting? name x).isNone) = ds :=
    List.filter_eq_self.mpr fun x hx => by rw [waiting?_eq_none hwait hx]; rfl
  have hnothing : ds.filterMap (waiting? name) = [] :=
    List.filterMap_eq_nil_iff.mpr fun x hx => waiting?_eq_none hwait hx
  have hsame : d.mapImpls (Impl.attachAll · []) = d := d.mapImpls_id
  rw [pushType, hnone, appendType, hkeep, hnothing, hsame]

/-- The last declaration of a list with a tidy outline is appended by a push to those before it. -/
theorem pushDecl_of_tidy (h : Tidy (outline (ds ++ [d]))) :
    pushDecl ds d = (ds ++ [d], .ok ()) := by
  have htypes : (typeNames ds ++ typeNames [d]).Nodup := by
    have := h.typesDistinct
    rwa [filterMap_outline Decl.typeName?_bare, ← typeNames, typeNames_append] at this
  have hwaiters : (ds.filterMap Decl.waitKey? ++ [d].filterMap Decl.waitKey?).Nodup := by
    have := h.waitersDistinct
    rwa [filterMap_outline Decl.waitKey?_bare, List.filterMap_append] at this
  have hhomeless : ∀ i, Decl.impl i ∈ ds ++ [d] → i.self ∉ typeNames (ds ++ [d]) := by
    intro i hi
    have := h.waitersHomeless _ (List.mem_map_of_mem (f := Decl.bare) hi)
    rwa [filterMap_outline Decl.typeName?_bare] at this
  have htype {n : Ident} {blocks : List Impl} (hd : d.typeName? = some n) :
      pushType ds n d blocks = (ds ++ [d], .ok ()) := by
    have hlast : typeNames [d] = [n] := by simp [typeNames, hd]
    refine pushType_of_fresh (fun hn => ?_) (fun i hi hself => ?_) blocks
    · rw [hlast] at htypes
      exact (List.nodup_append.mp htypes).2.2 n hn n List.mem_cons_self rfl
    · refine hhomeless i (List.mem_append_left _ hi) ?_
      rw [typeNames_append, hlast, hself]
      exact List.mem_append_right _ List.mem_cons_self
  cases d with
  | use u =>
      have huses : ∀ e ∈ ds, e.isUse = true := by
        intro e he
        have hpair := List.pairwise_append.mp (List.pairwise_map.mp h.usesFirst)
        have hfirst := hpair.2.2 e he _ List.mem_cons_self
        rw [Decl.isUse_bare, Decl.isUse_bare] at hfirst
        exact hfirst rfl
      have hnew : hasUse u ds = false := by
        have hdistinct := h.usesDistinct
        rw [filterMap_outline Decl.use?_bare, List.filterMap_append] at hdistinct
        rw [Bool.eq_false_iff, Ne, hasUse_iff]
        exact fun hu => (List.nodup_append.mp hdistinct).2.2 u hu u List.mem_cons_self rfl
      rw [pushDecl, hnew, insertUse_of_all huses]
      rfl
  | struct s => exact htype rfl
  | enum e => exact htype rfl
  | impl i =>
      have hself : ¬ (typeDecl? ds i.self).isSome = true := by
        rw [isSome_typeDecl?]
        intro hi
        refine hhomeless i (List.mem_append_right _ List.mem_cons_self) ?_
        rw [typeNames_append]
        exact List.mem_append_left _ hi
      have hlike : ¬ ds.any (waitsLike i) = true := by
        rw [any_waitsLike]
        exact fun hi => (List.nodup_append.mp hwaiters).2.2 _ hi _ List.mem_cons_self rfl
      rw [pushDecl, pushImpl, if_neg hself, if_neg hlike]
  | func f => rfl
  | verbatim text => rfl

/-- Pushing the declarations of a tidy list gives them back. -/
theorem makes_self (h : Tidy (outline ds)) : Makes ds ds := by
  induction ds using List.reverseRecOn with
  | nil => exact makes_nil
  | append_singleton ds d ih =>
      have hbefore : Tidy (outline ds) := by
        rw [outline_append] at h
        exact h.sublist (List.sublist_append_left _ _)
      exact makes_concat_iff.mpr ⟨ds, ih hbefore, pushDecl_of_tidy h⟩

/-- What a run gave can be pushed in the place of what was pushed. -/
theorem Makes.append_iff (h : Makes items ds) {more es : List Decl} :
    Makes (ds ++ more) es ↔ Makes (items ++ more) es := by
  have hself : Makes ds ds := makes_self h.tidy_outline
  rw [makes_append_iff, makes_append_iff]
  constructor
  · rintro ⟨ds', hds', hes⟩
    exact ⟨ds, h, hds'.unique hself ▸ hes⟩
  · rintro ⟨ds', hds', hes⟩
    exact ⟨ds, hself, hds'.unique h ▸ hes⟩

/-! ### Merging once more -/

theorem KindsAgree.perm {es : List Decl} (h : es.Perm ds) : KindsAgree es ↔ KindsAgree ds := by
  simp only [KindsAgree, h.mem_iff]

/-- Parts of one name can be merged when the kinds of all their types agree. -/
theorem exists_merge_iff (hne : parts ≠ []) (hname : ∀ p ∈ parts, p.name = name) :
    (∃ m, merge parts = .ok m) ↔ KindsAgree (parts.flatMap Module.decls) := by
  simp only [merge_eq_ok_iff hne hname]
  have hperm := (List.mergeSort_perm parts comesBefore).flatMap_right Module.decls
  rw [← KindsAgree.perm hperm, ← exists_makes_iff]
  exact ⟨fun ⟨_, ds, hds, _⟩ => ⟨ds, hds⟩, fun ⟨ds, hds⟩ => ⟨_, ds, hds, rfl⟩⟩

/-- The origin of a merged module comes before those of later parts: it is that of the only part,
or it is empty. -/
theorem soleOrigin_lt {q : Module}
    (hdone : ∀ p ∈ done, Text.rank p.origin < Text.rank q.origin) (hq : q.origin ≠ "") :
    Text.rank (soleOrigin done) < Text.rank q.origin := by
  match done with
  | [] => exact Text.rank_empty_lt hq
  | [p] => exact hdone p List.mem_cons_self
  | _ :: _ :: _ => exact Text.rank_empty_lt hq

/-- Merging parts, and then the result with parts of later origins, is merging all at once. -/
theorem merge_cons_eq_ok_iff (hdone : merge done = .ok m) (hrest : rest ≠ [])
    (hname : ∀ p ∈ done ++ rest, p.name = name)
    (horigins : (done ++ rest).Pairwise fun p q => Text.rank p.origin < Text.rank q.origin)
    (hsome : ∀ p ∈ rest, p.origin ≠ "") :
    merge (m :: rest) = .ok m' ↔ merge (done ++ rest) = .ok m' := by
  have hne : done ≠ [] := by
    rintro rfl
    cases hdone
  obtain ⟨horigins₁, horigins₂, hacross⟩ := List.pairwise_append.mp horigins
  have hname₁ : ∀ p ∈ done, p.name = name := fun p hp => hname p (List.mem_append_left _ hp)
  obtain ⟨ds, hds, hm⟩ := (merge_eq_ok_iff hne hname₁).mp hdone
  rw [mergeSort_of_origins horigins₁] at hds hm
  have hmname : m.name = name := hm ▸ rfl
  have hmorigin : m.origin = soleOrigin done := hm ▸ rfl
  have hmattrs : m.attrs = done.flatMap Module.attrs := hm ▸ rfl
  have hmdecls : m.decls = ds := hm ▸ rfl
  have hagain : ∀ p ∈ m :: rest, p.name = name :=
    List.forall_mem_cons.mpr ⟨hmname, fun p hp => hname p (List.mem_append_right _ hp)⟩
  -- the merged module stays in front of the later parts
  have hfirst : (m :: rest).Pairwise fun p q => Text.rank p.origin < Text.rank q.origin := by
    refine .cons (fun q hq => ?_) horigins₂
    rw [hmorigin]
    exact soleOrigin_lt (fun p hp => hacross p hp q hq) (hsome q hq)
  have hsole : soleOrigin (m :: rest) = soleOrigin (done ++ rest) := by
    obtain ⟨p, ps, rfl⟩ := List.exists_cons_of_ne_nil hne
    obtain ⟨q, qs, rfl⟩ := List.exists_cons_of_ne_nil hrest
    cases ps <;> rfl
  rw [merge_eq_ok_iff (List.cons_ne_nil _ _) hagain,
    merge_eq_ok_iff (List.append_ne_nil_of_left_ne_nil hne _) hname, mergeSort_of_origins hfirst,
    mergeSort_of_origins horigins, hsole, List.flatMap_cons, List.flatMap_cons,
    List.flatMap_append, List.flatMap_append, hmattrs, hmdecls]
  simp only [hds.append_iff]

end Module
end ClientLoom
