import ClientLoom.Proofs.Module.FirstChange
import ClientLoom.Proofs.Walk.Literals
import ClientLoom.Proofs.Walk.Rules
import ClientLoom.Prune

/-! # Pruning keeps the configuration consistent

`Prune.run` takes fields out of a struct and the entries for them out of the struct literals in two
bodies.  It does so in a walk that goes through the values of a literal before it drops entries,
and counts as it goes; what comes of it is dropping the entries from all literals at once, and the
count is that of the entries in all literals of the old body (`walkStmts_eq`, `dropInits_eq`).

Main statement: pruning leaves a module as it was, or changes the target and takes structs out and
nothing else (`Pruned`), so that literals that listed the fields of the target list its fields
still, and finds nothing to do the next time (`run_consistent`). -/

namespace ClientLoom

/-! ### Functions and their literals -/

namespace Func

variable (gone : Ident → Bool) (f : Func)

/-- The struct literals in the body of a function that stand outside of entries whose names are
gone. -/
def literals : List StructLiteral := Literals.ofStmts? gone f.body

/-- All struct literals in the body of a function. -/
def allLiterals : List StructLiteral := f.literals fun _ => false

/-- The function without the entries of struct literals whose names are gone. -/
def dropEntries : Func := { f with body := Literals.dropStmts? gone f.body }

end Func

namespace Prune

open Literals
open Replacer (bind_apply pure_apply walkTy? walkExpr walkExprs walkExpr? walkInits walkStmt
  walkStmts walkStmts?)

/-! ### The walk -/

section walk

variable (names : List Ident)

/-- The number of entries with one of the names in literals. -/
def countEntries (ls : List StructLiteral) : Nat :=
  (ls.flatMap StructLiteral.entries).countP names.contains

theorem countEntries_append (ls ks : List StructLiteral) :
    countEntries names (ls ++ ks) = countEntries names ls + countEntries names ks := by
  simp [countEntries]

/-- A tally when literals were offered as well: each of them was answered, and their entries with
one of the names were counted. -/
def noted (s : Tally Nat) (ls : List StructLiteral) : Tally Nat :=
  ⟨s.state + countEntries names ls, s.count + ls.length⟩

theorem noted_noted (s : Tally Nat) (ls ks : List StructLiteral) :
    noted names (noted names s ls) ks = noted names s (ls ++ ks) := by
  simp [noted, countEntries_append, Nat.add_assoc]

theorem silent_droppingInits : (droppingInits names).Silent := fun _ _ => rfl

theorem offerExpr_construct (p : Path) (inits : List FieldInit) (base : Option Expr)
    (s : Tally Nat) :
    (droppingInits names).offerExpr (.construct p inits base) s =
      (.construct p (inits.filter (!names.contains ·.name)) base,
        noted names s [⟨p, inits.map FieldInit.name⟩]) := by
  have hcount : inits.countP (names.contains ·.name) =
      countEntries names [⟨p, inits.map FieldInit.name⟩] := by
    simp [countEntries, List.countP_map, Function.comp_def]
  rw [noted, ← hcount]
  rfl

/-! Entries are dropped from a literal after the walk went through their values, so that what is
inside of a dropped entry is counted, too. -/

mutual

theorem walkExpr_eq : ∀ (e : Expr) (s : Tally Nat), walkExpr (droppingInits names) e s =
    (dropExpr names.contains e, noted names s (ofExpr (fun _ => false) e))
  | .path _, s | .lit _, s | .raw _, s => rfl
  | .field e _, s | .ref _ e, s | .attempt e, s | .letCond _ e, s => by
      simp only [walkExpr, bind_apply, walkExpr_eq e, dropExpr, ofExpr]
      rfl
  | .call e args, s | .method e _ args, s => by
      simp only [walkExpr, bind_apply, walkExpr_eq e, walkExprs_eq args, dropExpr, ofExpr,
        noted_noted]
      rfl
  | .macroCall _ args, s => by
      simp only [walkExpr, bind_apply, walkExprs_eq args, dropExpr, ofExpr]
      rfl
  | .construct p inits base, s => by
      simp only [walkExpr, bind_apply, walkInits_eq inits, walkExpr?_eq base, offerExpr_construct,
        map_name_dropValues, dropExpr, ofExpr, noted_noted, List.append_assoc]
  | .cond test yes no, s => by
      simp only [walkExpr, bind_apply, walkExpr_eq test, walkStmts_eq yes, walkStmts?_eq no,
        dropExpr, ofExpr, noted_noted, List.append_assoc]
      rfl
  | .block stmts, s => by
      simp only [walkExpr, bind_apply, walkStmts_eq stmts, dropExpr, ofExpr]
      rfl

theorem walkExprs_eq : ∀ (es : List Expr) (s : Tally Nat), walkExprs (droppingInits names) es s =
    (dropExprs names.contains es, noted names s (ofExprs (fun _ => false) es))
  | [], s => rfl
  | e :: es, s => by
      simp only [walkExprs, bind_apply, pure_apply, walkExpr_eq e, walkExprs_eq es, dropExprs,
        ofExprs, noted_noted]

theorem walkExpr?_eq :
    ∀ (e : Option Expr) (s : Tally Nat), walkExpr? (droppingInits names) e s =
      (dropExpr? names.contains e, noted names s (ofExpr? (fun _ => false) e))
  | none, s => rfl
  | some e, s => by
      simp only [walkExpr?, bind_apply, pure_apply, walkExpr_eq e, dropExpr?, ofExpr?]

theorem walkInits_eq :
    ∀ (inits : List FieldInit) (s : Tally Nat), walkInits (droppingInits names) inits s =
      (dropValues names.contains inits, noted names s (ofInits (fun _ => false) inits))
  | [], s => rfl
  | .mk _ value :: rest, s => by
      simp only [walkInits, bind_apply, pure_apply, walkExpr?_eq value, walkInits_eq rest,
        dropValues, ofInits, noted_noted]
      rfl

theorem walkStmt_eq : ∀ (stmt : Stmt) (s : Tally Nat), walkStmt (droppingInits names) stmt s =
    (dropStmt names.contains stmt, noted names s (ofStmt (fun _ => false) stmt))
  | .bind _ ty value, s => by
      simp only [walkStmt, bind_apply, pure_apply,
        Replacer.walkTy?_of_silent (silent_droppingInits names), walkExpr?_eq value, dropStmt,
        ofStmt]
  | .expr e _, s => by
      simp only [walkStmt, bind_apply, pure_apply, walkExpr_eq e, dropStmt, ofStmt]

theorem walkStmts_eq : ∀ (b : List Stmt) (s : Tally Nat), walkStmts (droppingInits names) b s =
    (dropStmts names.contains b, noted names s (Literals.all b))
  | [], s => rfl
  | stmt :: rest, s => by
      simp only [walkStmts, bind_apply, pure_apply, walkStmt_eq stmt, walkStmts_eq rest, dropStmts,
        Literals.all, ofStmts, noted_noted]

theorem walkStmts?_eq :
    ∀ (b : Option (List Stmt)) (s : Tally Nat), walkStmts? (droppingInits names) b s =
      (dropStmts? names.contains b, noted names s (ofStmts? (fun _ => false) b))
  | none, s => rfl
  | some b, s => by
      simp only [walkStmts?, bind_apply, pure_apply, walkStmts_eq b, dropStmts?, ofStmts?]

end

/-- Dropping entries takes them out of all literals of the body and counts those of all literals,
also of literals within entries that go. -/
theorem dropInits_eq (f : Func) :
    dropInits names f = (f.dropEntries names.contains, countEntries names f.allLiterals) := by
  cases hbody : f.body with
  | none =>
      simp only [dropInits, Func.replaceBody, hbody, Func.dropEntries, Func.allLiterals,
        Func.literals, dropStmts?, ofStmts?]
      rw [← hbody]
      rfl
  | some b =>
      simp only [dropInits, Func.replaceBody, hbody, Block.replace, Replaced.ofWalk, walkStmts_eq,
        Func.dropEntries, Func.allLiterals, Func.literals, dropStmts?, ofStmts?, noted,
        Nat.zero_add]

end walk

/-! ### Literals that lost entries -/

section literals

variable (names : List Ident) (f : Func)

/-- What becomes of the literals of a function, and of literals that list given fields. -/
structure LiteralsPruned (fields left : List Ident) (f' : Func) : Prop where
  /-- the literals outside of dropped entries are left, and lose the named entries -/
  entries : f'.allLiterals =
    (f.literals names.contains).map (StructLiteral.drop names.contains)
  old : (f.literals names.contains).Sublist f.allLiterals
  /-- a literal that lists the fields lists the fields that are left -/
  complete : ∀ l ∈ f.literals names.contains, l.entries.Perm fields →
    (l.drop names.contains).entries.Perm left

theorem allLiterals_dropEntries : (f.dropEntries names.contains).allLiterals =
    (f.literals names.contains).map (StructLiteral.drop names.contains) := by
  have h := ofStmts?_dropStmts? names.contains (fun _ => false) f.body
  simp only [Bool.or_false] at h
  exact h

theorem literalsPruned_dropEntries (fields : List Ident) :
    LiteralsPruned names f fields (fields.filter (!names.contains ·))
      (f.dropEntries names.contains) where
  entries := allLiterals_dropEntries names f
  old := ofStmts?_sublist names.contains f.body
  complete := fun _ _ h => h.filter _

theorem dropEntries_dropEntries :
    (f.dropEntries names.contains).dropEntries names.contains = f.dropEntries names.contains := by
  simp only [Func.dropEntries, dropStmts?_dropStmts?, Bool.or_self]

theorem countEntries_dropEntries :
    countEntries names (f.dropEntries names.contains).allLiterals = 0 := by
  rw [allLiterals_dropEntries, countEntries, List.countP_eq_zero]
  intro n hn
  obtain ⟨l, hl, hn⟩ := List.mem_flatMap.mp hn
  obtain ⟨l, -, rfl⟩ := List.mem_map.mp hl
  simpa using (List.mem_filter.mp hn).2

end literals

/-! ### Functions of a struct -/

section members

variable {s : Struct} {key key' : String} {name name' : Ident} {f : Func} {g : Func → Func}

/-- A struct comes from another by a change of one function: the first called `name` in the first
block with the given trait. -/
def MemberChanged (key : String) (name : Ident) (g : Func → Func) (s s' : Struct) : Prop :=
  ∃ impls,
    Module.FirstChanged (fun i => i.traitKey = key)
      (fun i i' => ∃ fns,
        Module.FirstChanged (fun f => f.name = name) (fun f f' => f' = g f) i.fns fns ∧
          i' = { i with fns := fns })
      s.impls impls ∧
    s' = { s with impls := impls }

theorem member?_eq_some_iff :
    member? s key name = some f ↔
      ∃ i, s.impls.find? (·.traitKey == key) = some i ∧ i.fns.find? (·.name == name) = some f :=
  Option.bind_eq_some_iff

/-- A block whose first function called `name` is changed. -/
def changeFn (name : Ident) (g : Func → Func) (i : Impl) : Impl :=
  { i with fns := Module.modifyFirst (·.name == name) g i.fns }

theorem impls_modifyMember : (modifyMember s key name g).impls =
    Module.modifyFirst (·.traitKey == key) (changeFn name g) s.impls := rfl

theorem memberChanged_modifyMember (h : member? s key name = some f) :
    MemberChanged key name g s (modifyMember s key name g) := by
  obtain ⟨i, hi, hf⟩ := member?_eq_some_iff.mp h
  refine ⟨_, Module.firstChanged_modifyFirst (fun _ => beq_iff_eq) hi ⟨_, ?_, rfl⟩, rfl⟩
  exact Module.firstChanged_modifyFirst (fun _ => beq_iff_eq) hf rfl

theorem member?_modifyMember (hg : ∀ f, (g f).name = f.name) (h : member? s key name = some f) :
    member? (modifyMember s key name g) key name = some (g f) := by
  obtain ⟨i, hi, hf⟩ := member?_eq_some_iff.mp h
  have hblocks : ∀ x : Impl,
      (x.traitKey == key) = true → ((changeFn name g x).traitKey == key) = true := fun _ hx => hx
  have hfns : ∀ x : Func, (x.name == name) = true → ((g x).name == name) = true :=
    fun x hx => by rwa [hg]
  exact member?_eq_some_iff.mpr ⟨changeFn name g i,
    (Module.find?_modifyFirst hblocks s.impls).trans (congrArg (Option.map _) hi),
    (Module.find?_modifyFirst hfns i.fns).trans (congrArg (Option.map g) hf)⟩

/-- Blocks for another trait stay as they are. -/
theorem member?_modifyMember_of_ne (h : key ≠ key') :
    member? (modifyMember s key name g) key' name' = member? s key' name' := by
  have hother : ∀ i : Impl, (i.traitKey == key) = true →
      (i.traitKey == key') = false ∧ ((changeFn name g i).traitKey == key') = false := by
    intro i hi
    have hne : (i.traitKey == key') = false := by
      rw [beq_iff_eq.mp hi]
      exact beq_false_of_ne h
    exact ⟨hne, hne⟩
  rw [member?, Impl.findKey?, impls_modifyMember, Module.find?_modifyFirst_of_ne hother]
  rfl

theorem modifyMember_eq_self (h : member? s key name = some f) (hg : g f = f) :
    modifyMember s key name g = s := by
  obtain ⟨i, hi, hf⟩ := member?_eq_some_iff.mp h
  have hblock : changeFn name g i = i := by
    rw [changeFn, Module.modifyFirst_eq_self hf hg]
  have himpls : (modifyMember s key name g).impls = s.impls := by
    rw [impls_modifyMember, Module.modifyFirst_eq_self hi hblock]
  show { s with impls := (modifyMember s key name g).impls } = s
  rw [himpls]

end members

/-! ### The target -/

/-- What pruning looks for: a struct with a constructor and a default value. -/
structure Target (m : Module) (opts : Options) (s : Struct) (new dflt : Func) : Prop where
  struct : m.struct? opts.struct = some s
  constructor : member? s "" opts.constructor = some new
  default : member? s "Default" "default" = some dflt

/-- What pruning makes of its target: fields go, two functions lose entries of struct literals, and
everything else stays. -/
structure TargetPruned (opts : Options) (s s' : Struct) : Prop where
  fields : s'.fields = s.fields.filter (!opts.fields.contains ·.name)
  members : ∃ mid,
    MemberChanged "" opts.constructor (Func.dropEntries opts.fields.contains)
      { s with fields := s'.fields } mid ∧
    MemberChanged "Default" "default" (Func.dropEntries opts.fields.contains) mid s'

variable {m m' : Module} {opts : Options} {s : Struct} {new dflt : Func}

theorem pruneStruct_eq (opts : Options) (s : Struct) :
    pruneStruct opts s =
      modifyMember
        (modifyMember (s.removeFields opts.fields) "" opts.constructor
          (Func.dropEntries opts.fields.contains))
        "Default" "default" (Func.dropEntries opts.fields.contains) := by
  have hdrop : (fun f => (dropInits opts.fields f).1) = Func.dropEntries opts.fields.contains :=
    funext fun f => by rw [dropInits_eq]
  rw [pruneStruct, hdrop]

theorem Target.constructor_pruneStruct (h : Target m opts s new dflt) :
    member? (pruneStruct opts s) "" opts.constructor =
      some (new.dropEntries opts.fields.contains) := by
  rw [pruneStruct_eq, member?_modifyMember_of_ne (by decide)]
  exact member?_modifyMember (fun _ => rfl) h.constructor

theorem Target.default_pruneStruct (h : Target m opts s new dflt) :
    member? (pruneStruct opts s) "Default" "default" =
      some (dflt.dropEntries opts.fields.contains) := by
  rw [pruneStruct_eq]
  refine member?_modifyMember (fun _ => rfl) ?_
  rw [member?_modifyMember_of_ne (by decide)]
  exact h.default

theorem Target.targetPruned (h : Target m opts s new dflt) :
    TargetPruned opts s (pruneStruct opts s) where
  fields := rfl
  members := by
    rw [pruneStruct_eq]
    refine ⟨_, memberChanged_modifyMember (f := new) h.constructor,
      memberChanged_modifyMember (f := dflt) ?_⟩
    rw [member?_modifyMember_of_ne (by decide)]
    exact h.default

/-- A struct without the fields whose functions have lost their entries has nothing to lose. -/
theorem Target.pruneStruct_pruneStruct (h : Target m opts s new dflt) :
    pruneStruct opts (pruneStruct opts s) = pruneStruct opts s := by
  have hfields : (pruneStruct opts s).removeFields opts.fields = pruneStruct opts s := by
    rw [Struct.removeFields, h.targetPruned.fields, List.filter_filter]
    simp only [Bool.and_self]
    rfl
  have hnew := modifyMember_eq_self h.constructor_pruneStruct
    (dropEntries_dropEntries opts.fields new)
  have hdflt := modifyMember_eq_self h.default_pruneStruct
    (dropEntries_dropEntries opts.fields dflt)
  rw [pruneStruct_eq opts (pruneStruct opts s), hfields, hnew, hdflt]

/-! ### Runs -/

/-- What is left of a module in which pruning finds its target. -/
def left (m : Module) (opts : Options) : Module :=
  (m.modifyStruct opts.struct (pruneStruct opts)).without (isAux opts.auxStructs)

/-- What leaves a module in which pruning finds its target; entries count in all literals, also in
those within entries that go. -/
def removed (m : Module) (opts : Options) (s : Struct) (new dflt : Func) : Stats where
  auxStructs := m.decls.countP (isAux opts.auxStructs)
  fields := s.fields.countP (opts.fields.contains ·.name)
  inits := countEntries opts.fields (new.allLiterals ++ dflt.allLiterals)

/-- What pruning makes of a module in which it finds its target. -/
structure Pruned (opts : Options) (m : Module) (s : Struct) (new dflt : Func) (m' : Module)
    (s' : Struct) (stats : Stats) : Prop where
  target : TargetPruned opts s s'
  /-- the target is changed in its place, the auxiliary structs leave, and that is all -/
  module : ∃ ds,
    Module.FirstChanged (fun d => ∃ t, d = .struct t ∧ t.name = opts.struct)
      (fun d d' => d = .struct s ∧ d' = .struct s') m.decls ds ∧
    m' = { m with decls := ds.filter (!isAux opts.auxStructs ·) }
  /-- what is found afterwards are the old functions without the entries -/
  found : Target m' opts s' (new.dropEntries opts.fields.contains)
    (dflt.dropEntries opts.fields.contains)
  literals : ∀ f ∈ [new, dflt], LiteralsPruned opts.fields f (s.fields.map Field.name)
    (s'.fields.map Field.name) (f.dropEntries opts.fields.contains)
  stats : stats = removed m opts s new dflt

theorem isAux_iff {names : List Ident} {d : Decl} :
    isAux names d = true ↔ ∃ t, d = .struct t ∧ t.name ∈ names := by
  cases d <;> simp [isAux]

theorem run_of_target (hname : m.name = opts.module) (h : Target m opts s new dflt) :
    run m opts = (left m opts, .ok (removed m opts s new dflt)) := by
  unfold run
  dsimp only
  rw [if_neg (not_not_intro hname), h.struct]
  dsimp only
  rw [h.constructor, h.default]
  dsimp only
  rw [dropInits_eq, dropInits_eq, ← countEntries_append]
  rfl

/-- Without its target pruning fails and leaves the module as it was. -/
theorem exists_run_eq_error (hname : m.name = opts.module)
    (h : ∀ s new dflt, ¬ Target m opts s new dflt) : ∃ f, run m opts = (m, .error f) := by
  unfold run
  dsimp only
  rw [if_neg (not_not_intro hname)]
  split
  · exact ⟨_, rfl⟩
  · next s hs =>
      split
      · exact ⟨_, rfl⟩
      · exact ⟨_, rfl⟩
      · next new dflt hnew hdflt => exact absurd ⟨hs, hnew, hdflt⟩ (h s new dflt)

/-- The target is found again in what is left. -/
theorem Target.left (h : Target m opts s new dflt) (hstruct : opts.struct ∉ opts.auxStructs) :
    Target (left m opts) opts (pruneStruct opts s) (new.dropEntries opts.fields.contains)
      (dflt.dropEntries opts.fields.contains) where
  struct := by
    refine Module.struct?_without (Module.struct?_modifyStruct h.struct rfl) ?_
    have hname : (pruneStruct opts s).name = opts.struct := by
      obtain ⟨-, -, -, -, hname⟩ := Module.struct?_eq_some_iff.mp h.struct
      exact hname
    rw [Bool.eq_false_iff, Ne, isAux_iff]
    rintro ⟨t, ht, haux⟩
    rw [← Decl.struct.inj ht, hname] at haux
    exact hstruct haux
  constructor := h.constructor_pruneStruct
  default := h.default_pruneStruct

theorem Target.pruned (h : Target m opts s new dflt) (hstruct : opts.struct ∉ opts.auxStructs) :
    Pruned opts m s new dflt (Prune.left m opts) (pruneStruct opts s)
      (removed m opts s new dflt) where
  target := h.targetPruned
  module := by
    refine ⟨_, Module.firstChanged_modifyFirst (fun d => ?_) (Module.find?_of_struct? h.struct)
      ⟨rfl, rfl⟩, rfl⟩
    rw [Option.isSome_iff_exists]
    simp only [Module.structNamed?_eq_some_iff]
  found := h.left hstruct
  literals := by
    intro f _
    have hfields : (pruneStruct opts s).fields.map Field.name =
        (s.fields.map Field.name).filter (!opts.fields.contains ·) := by
      rw [h.targetPruned.fields, List.filter_map]
      rfl
    rw [hfields]
    exact literalsPruned_dropEntries opts.fields f _
  stats := rfl

theorem Target.left_left (h : Target m opts s new dflt)
    (hstruct : opts.struct ∉ opts.auxStructs) :
    Prune.left (Prune.left m opts) opts = Prune.left m opts := by
  rw [Prune.left, Module.modifyStruct_eq_self (h.left hstruct).struct h.pruneStruct_pruneStruct,
    Prune.left, Module.without_without]

theorem Target.removed_left (h : Target m opts s new dflt) :
    removed (Prune.left m opts) opts (pruneStruct opts s)
      (new.dropEntries opts.fields.contains) (dflt.dropEntries opts.fields.contains) = {} := by
  have haux : (Prune.left m opts).decls.countP (isAux opts.auxStructs) = 0 := by
    rw [List.countP_eq_zero]
    intro d hd
    simpa using (List.mem_filter.mp hd).2
  have hfields : (pruneStruct opts s).fields.countP (opts.fields.contains ·.name) = 0 := by
    rw [List.countP_eq_zero, h.targetPruned.fields]
    intro x hx
    simpa using (List.mem_filter.mp hx).2
  rw [removed, haux, hfields, countEntries_append, countEntries_dropEntries,
    countEntries_dropEntries]

/-- There is nothing to prune in a module that was pruned. -/
theorem Target.run_left (hname : m.name = opts.module) (h : Target m opts s new dflt)
    (hstruct : opts.struct ∉ opts.auxStructs) :
    run (Prune.left m opts) opts = (Prune.left m opts, .ok {}) := by
  have hagain : (Prune.left m opts).name = opts.module := hname
  rw [run_of_target hagain (h.left hstruct), h.left_left hstruct, h.removed_left]

/-- Pruning fails or has another module in mind, and leaves the module as it was; or it finds its
target, and then the auxiliary structs go, the target loses fields and the literals of its
constructor and its default value lose the entries for them, all that is counted, nothing else
changes, and pruning once more changes nothing at all. -/
theorem run_consistent (m : Module) (opts : Options) (hstruct : opts.struct ∉ opts.auxStructs) :
    ((∃ f, run m opts = (m, .error f)) ∨ m.name ≠ opts.module ∧ run m opts = (m, .ok {})) ∨
      ∃ m' s s' new dflt stats,
        m.name = opts.module ∧ Target m opts s new dflt ∧ run m opts = (m', .ok stats) ∧
          Pruned opts m s new dflt m' s' stats ∧ run m' opts = (m', .ok {}) := by
  by_cases hname : m.name = opts.module
  · by_cases h : ∃ s new dflt, Target m opts s new dflt
    · obtain ⟨s, new, dflt, h⟩ := h
      exact .inr ⟨_, s, _, new, dflt, _, hname, h, run_of_target hname h, h.pruned hstruct,
        h.run_left hname hstruct⟩
    · push Not at h
      exact .inl (.inl (exists_run_eq_error hname h))
  · exact .inl (.inr ⟨hname, if_pos hname⟩)

/-- A configuration with a key, which has a struct literal for its own struct. -/
def keyedPet : Module :=
  let key : Expr := .construct (.of "ApiKey") [.mk "api_key" none, .mk "prefix" none] none
  let full : Expr := .construct (.of "Self") [.mk "base" none, .mk "api_key" (some key)] none
  let blank : Expr := .construct (.of "Self") [.mk "api_key" none, .mk "base" none] none
  { name := "configuration"
    decls :=
      [.struct { name := "ApiKey" },
        .struct
          { name := "Configuration"
            fields := [{ name := "base", ty := .named "String" },
              { name := "api_key", ty := .named "ApiKey" }]
            impls :=
              [{ self := "Configuration"
                 fns := [{ name := "new", body := some [.expr full false] }] },
                { self := "Configuration"
                  trait := some (.of "Default")
                  fns := [{ name := "default", body := some [.expr blank false] }] }] }] }

/-- The entry within the key is counted although the key goes. -/
theorem run_consistent_pet :
    Options.usual.struct ∉ Options.usual.auxStructs ∧
      ∃ m', run keyedPet .usual = (m', .ok ⟨1, 1, 3⟩) ∧ m'.decls.map Decl.kind = [.struct] ∧
        run m' .usual = (m', .ok {}) := by
  have hstruct : Options.usual.struct ∉ Options.usual.auxStructs := by decide
  have hkinds : (run keyedPet .usual).1.decls.map Decl.kind = [.struct] := by decide +kernel
  have hstats : (run keyedPet .usual).2.toOption = some ⟨1, 1, 3⟩ := by decide +kernel
  rcases run_consistent keyedPet .usual hstruct with
    (⟨f, hf⟩ | ⟨hname, -⟩) | ⟨m', s, s', new, dflt, stats, -, -, hrun, -, hagain⟩
  · rw [hf] at hstats
    cases hstats
  · exact absurd rfl hname
  · rw [hrun] at hkinds hstats
    obtain rfl := Option.some.inj hstats
    exact ⟨hstruct, m', hrun, hkinds, hagain⟩

end Prune
end ClientLoom
