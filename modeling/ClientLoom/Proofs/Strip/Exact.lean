import ClientLoom.Strip
import ClientLoom.Proofs.Walk.Rules

/-! # What stripping changes

`Strip.stripDecls` and `Strip.stripBodies` shorten paths.  Here each is one change of the paths in
its own places (`stripDecls_eq`, `stripBodies_eq`): a path that goes on behind the leading path
loses that part once (`Path.cut`), and the number that is reported is the number of these paths.

Everything else about the two follows from what is known of such changes, in particular that they
leave the rest of a module alone and do not get in each other's way (`strip_exact`). -/

namespace ClientLoom

/-! ### Leading parts of paths -/

namespace Path

/-- The path is `lead` and then at least one more segment.  A path without segments only holds a
place and leads to no path. -/
def GoesOn (lead p : Path) : Prop := lead.segments ≠ [] ∧ ∃ rest, rest ≠ [] ∧ p = lead.join rest

variable {lead p q : Path}

theorem startsWith_iff :
    p.startsWith lead = true ↔ lead.segments ≠ [] ∧ ∃ rest, p = lead.join rest := by
  simp only [startsWith, Bool.and_eq_true, Bool.not_eq_true', List.isEmpty_eq_false_iff,
    List.isPrefixOf_iff_prefix]
  refine and_congr_right fun _ => exists_congr fun rest => ?_
  cases p
  simp [join, eq_comm]

theorem strip?_eq_some_iff :
    p.strip? lead = some q ↔
      lead.segments ≠ [] ∧ q.segments ≠ [] ∧ p = lead.join q.segments := by
  simp only [strip?, Option.ite_none_right_eq_some, Bool.and_eq_true, startsWith_iff, bne_iff_ne,
    Option.some.injEq]
  constructor
  · rintro ⟨⟨⟨hlead, rest, rfl⟩, hlength⟩, rfl⟩
    have hdrop : (lead.join rest).segments.drop lead.length = rest := List.drop_left
    simp only [hdrop]
    refine ⟨hlead, ?_, trivial⟩
    rintro rfl
    simp [join, length] at hlength
  · rintro ⟨hlead, hq, rfl⟩
    refine ⟨⟨⟨hlead, q.segments, rfl⟩, ?_⟩, ?_⟩
    · intro hlength
      simp only [length, join, List.length_append] at hlength
      exact hq (List.eq_nil_of_length_eq_zero (by omega))
    · cases q
      simp [join, length]

theorem goesOn_iff : GoesOn lead p ↔ (p.strip? lead).isSome := by
  rw [Option.isSome_iff_exists]
  constructor
  · rintro ⟨hlead, rest, hrest, rfl⟩
    exact ⟨⟨rest⟩, strip?_eq_some_iff.mpr ⟨hlead, hrest, rfl⟩⟩
  · rintro ⟨q, hq⟩
    obtain ⟨hlead, hne, rfl⟩ := strip?_eq_some_iff.mp hq
    exact ⟨hlead, q.segments, hne, rfl⟩

instance (lead p : Path) : Decidable (GoesOn lead p) := decidable_of_iff _ goesOn_iff.symm

/-- The path without `lead` in front, if it goes on behind it; any other path is kept. -/
def cut (lead p : Path) : Path :=
  if GoesOn lead p then ⟨p.segments.drop lead.segments.length⟩ else p

theorem cut_join (hlead : lead.segments ≠ []) {rest : List Ident} (hrest : rest ≠ []) :
    cut lead (lead.join rest) = ⟨rest⟩ := by
  have hgoes : GoesOn lead (lead.join rest) := ⟨hlead, rest, hrest, rfl⟩
  rw [cut, if_pos hgoes]
  simp [join]

example : cut (.of "crate" ["models"]) (.of "crate" ["models", "Pet"]) = .of "Pet" := by decide

theorem cut_of_not_goesOn (h : ¬GoesOn lead p) : cut lead p = p := if_neg h

/-- What is cut off is never the whole path. -/
theorem segments_cut_eq_nil_iff : (cut lead p).segments = [] ↔ p.segments = [] := by
  by_cases h : GoesOn lead p
  · obtain ⟨hlead, rest, hrest, rfl⟩ := h
    rw [cut_join hlead hrest]
    simp [hrest, join]
  · rw [cut_of_not_goesOn h]

theorem getD_strip? (lead p : Path) : (p.strip? lead).getD p = cut lead p := by
  cases h : p.strip? lead with
  | none =>
      have hnot : ¬GoesOn lead p := by simp [goesOn_iff, h]
      rw [cut_of_not_goesOn hnot, Option.getD_none]
  | some q =>
      obtain ⟨hlead, hne, rfl⟩ := strip?_eq_some_iff.mp h
      rw [cut_join hlead hne, Option.getD_some]

end Path

/-! ### Stripping as a change of paths -/

namespace Strip

open ClientLoom.Path (GoesOn cut)

/-- Types, expressions and struct literals lose the leading path; a field access is not looked at
again after its base. -/
def rule (lead : Path) : PathRule where
  type p := p.strip? lead
  value p := p.strip? lead
  base _ := none
  literal p := p.strip? lead
  once _ := rfl

variable (lead : Path)

theorem ty?_eq (t : Ty) : ty? lead t = (rule lead).onTy? t := by cases t <;> rfl

theorem expr?_eq (e : Expr) : expr? lead e = (rule lead).onExpr? e := by
  cases e with
  | field base name => cases base <;> rfl
  | _ => rfl

theorem stripping_eq : stripping lead = (rule lead).replacer := by
  simp only [stripping, PathRule.replacer, ty?_eq, expr?_eq]

theorem answer_rule (role : PathRole) (p : Path) :
    (rule lead).answer role p = p.strip? lead := by
  cases role with
  | base => exact Option.or_none
  | _ => rfl

theorem outcome_rule : (rule lead).outcome = fun _ => cut lead := by
  funext role p
  rw [PathRule.outcome, answer_rule, Path.getD_strip?]

theorem hits_rule : (rule lead).hits = fun x => decide (GoesOn lead x.2) := by
  funext x
  rw [PathRule.hits, answer_rule, ← Bool.coe_iff_coe, decide_eq_true_iff, Path.goesOn_iff]

theorem strippedTy_eq (t : Ty) :
    strippedTy lead t = (Paths.mapTy (cut lead) t, (Paths.ofTy t).countP (GoesOn lead ·)) := by
  simp only [strippedTy, counted, Ty.replace, Replaced.ofWalk, stripping_eq, PathRule.walkTy_eq,
    outcome_rule, hits_rule, Tally.plus, Nat.zero_add]

theorem counted_replaceSignature (f : Func) :
    counted (f.replaceSignature (stripping lead) ()) =
      (f.mapDeclared (cut lead), f.declaredPaths.countP (GoesOn lead ·)) := by
  simp only [stripping_eq, PathRule.replaceSignature_eq, counted, outcome_rule, hits_rule]

theorem counted_replaceBody (f : Func) :
    counted (f.replaceBody (stripping lead) ()) =
      (f.mapBody fun _ => cut lead, f.bodyPaths.countP fun x => GoesOn lead x.2) := by
  simp only [stripping_eq, PathRule.replaceBody_eq, counted, outcome_rule, hits_rule]

theorem strippedDecl_eq (d : Decl) :
    strippedDecl lead d = (d.mapDeclared (cut lead), d.declaredPaths.countP (GoesOn lead ·)) := by
  simp only [strippedDecl, Decl.mapTypes_eq (strippedTy_eq lead),
    Decl.mapFuncs_eq (counted_replaceSignature lead), Decl.funcs_mapOwnTys, Decl.mapDeclared,
    Decl.declaredPaths, List.countP_append]

theorem strippedBodies_eq (d : Decl) :
    strippedBodies lead d =
      (d.mapBodies fun _ => cut lead, d.bodyPaths.countP fun x => GoesOn lead x.2) :=
  Decl.mapFuncs_eq (counted_replaceBody lead) d

variable (m : Module)

theorem stripDecls_eq :
    stripDecls lead m =
      (m.mapDeclared (cut lead), m.declaredPaths.countP (GoesOn lead ·)) := by
  simp only [stripDecls, onDecls, mapCount_eq (strippedDecl_eq lead), Module.mapDeclared,
    Module.declaredPaths]

theorem stripBodies_eq :
    stripBodies lead m =
      (m.mapBodies fun _ => cut lead, m.bodyPaths.countP fun x => GoesOn lead x.2) := by
  simp only [stripBodies, onDecls, mapCount_eq (strippedBodies_eq lead), Module.mapBodies,
    Module.bodyPaths]

/-! ### Confinement -/

/-- Two modules differ at most in the paths in the types of their fields and payloads and in
signatures: with one and the same path in all these places they are equal. -/
def AgreeBesideDeclared (m n : Module) : Prop :=
  ∀ blank : Path, m.mapDeclared (fun _ => blank) = n.mapDeclared (fun _ => blank)

/-- Two modules differ at most in the paths in function bodies. -/
def AgreeBesideBodies (m n : Module) : Prop :=
  ∀ blank : Path, m.mapBodies (fun _ _ => blank) = n.mapBodies (fun _ _ => blank)

theorem agreeBesideDeclared_mapDeclared (g : Path → Path) :
    AgreeBesideDeclared (m.mapDeclared g) m := by
  intro blank
  rw [Module.mapDeclared_mapDeclared]
  rfl

theorem agreeBesideBodies_mapBodies (k : PathRole → Path → Path) :
    AgreeBesideBodies (m.mapBodies k) m := by
  intro blank
  rw [Module.mapBodies_mapBodies]
  rfl

theorem stripBodies_stripDecls (other : Path) :
    stripBodies other (stripDecls lead m).1 =
      ((stripDecls lead (stripBodies other m).1).1, (stripBodies other m).2) := by
  simp only [stripDecls_eq, stripBodies_eq, Module.bodyPaths_mapDeclared,
    Module.mapBodies_mapDeclared]

theorem stripDecls_stripBodies_snd (other : Path) :
    (stripDecls lead (stripBodies other m).1).2 = (stripDecls lead m).2 := by
  simp only [stripDecls_eq, stripBodies_eq, Module.declaredPaths_mapBodies]

/-- Stripping a path from the declarations changes the paths in the types of fields and payloads
and in signatures: each that goes on behind the path loses it once, these are counted, and nothing
else is changed.  Stripping the bodies does the same in function bodies.  No path is cut off as a
whole, and the two can be done in either order, also with different paths, with the same module and
the same two numbers. -/
theorem strip_exact (other : Path) :
    (stripDecls lead m = (m.mapDeclared (cut lead), m.declaredPaths.countP (GoesOn lead ·)) ∧
      (stripDecls lead m).1.declaredPaths = m.declaredPaths.map (cut lead) ∧
      AgreeBesideDeclared (stripDecls lead m).1 m) ∧
    (stripBodies lead m =
        (m.mapBodies fun _ => cut lead, m.bodyPaths.countP fun x => GoesOn lead x.2) ∧
      (stripBodies lead m).1.bodyPaths = m.bodyPaths.map (fun x => (x.1, cut lead x.2)) ∧
      AgreeBesideBodies (stripBodies lead m).1 m) ∧
    (∀ p : Path, (cut lead p).segments = [] ↔ p.segments = []) ∧
    (stripBodies other (stripDecls lead m).1).1 = (stripDecls lead (stripBodies other m).1).1 ∧
    (stripBodies other (stripDecls lead m).1).2 = (stripBodies other m).2 ∧
    (stripDecls lead (stripBodies other m).1).2 = (stripDecls lead m).2 := by
  refine ⟨⟨stripDecls_eq lead m, ?_, ?_⟩, ⟨stripBodies_eq lead m, ?_, ?_⟩, ?_, ?_, ?_, ?_⟩
  · rw [stripDecls_eq]
    exact Module.declaredPaths_mapDeclared (cut lead) m
  · rw [stripDecls_eq]
    exact agreeBesideDeclared_mapDeclared m (cut lead)
  · rw [stripBodies_eq]
    exact Module.bodyPaths_mapBodies (fun _ => cut lead) m
  · rw [stripBodies_eq]
    exact agreeBesideBodies_mapBodies m fun _ => cut lead
  · intro p
    exact Path.segments_cut_eq_nil_iff
  · rw [stripBodies_stripDecls]
  · rw [stripBodies_stripDecls]
  · exact stripDecls_stripBodies_snd lead m other

end Strip
end ClientLoom
