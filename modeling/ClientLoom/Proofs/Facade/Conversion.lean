import ClientLoom.Proofs.Facade.Conservation
import ClientLoom.Proofs.Module.Pushing
import ClientLoom.Proofs.Text.Occurrence
import ClientLoom.Proofs.Walk.Rules

/-! # What a facade makes of a module

A facade that is generated takes up the functions whose names contain the stem (`IsSelected`).
`ConvertsTo` says what becomes of one: which part of its name goes, that it takes the receiver in
the place of its first parameter, and that a field access in its body reads the receiver exactly
where it read that parameter, however deep it stands.  Nothing else about the function changes.

Main statement: a facade is made of these conversions, in order, and of the module it leaves alone
everything but the struct and the blocks that bear its name (`generate_exact`).  Nothing is assumed
of the module. -/

namespace ClientLoom
namespace Facade

/-! ### Selection -/

/-- A free function whose name contains the stem. -/
def IsSelected (stem : String) (d : Decl) : Prop :=
  ∃ f, d = .func f ∧ stem.toList <:+: f.name.toList

theorem isOperation_iff {stem : String} {d : Decl} :
    isOperation stem d = true ↔ IsSelected stem d := by
  constructor
  · intro h
    cases d with
    | func f => exact ⟨f, rfl, Text.contains_iff_infix.mp h⟩
    | _ => cases h
  · rintro ⟨f, rfl, hname⟩
    exact Text.contains_iff_infix.mpr hname

instance (stem : String) (d : Decl) : Decidable (IsSelected stem d) :=
  decidable_of_iff _ isOperation_iff

theorem isOperation_eq_decide (stem : String) :
    isOperation stem = fun d => decide (IsSelected stem d) := by
  funext d
  rw [← Bool.coe_iff_coe, decide_eq_true_iff, isOperation_iff]

theorem filter_isOperation (stem : String) (ds : List Decl) :
    ds.filter (isOperation stem) = (ds.filterMap (operation? stem)).map .func := by
  induction ds with
  | nil => rfl
  | cons d ds ih =>
      cases hop : operation? stem d with
      | none => rw [List.filter_cons_of_neg (by simp [isOperation_eq, hop]),
          List.filterMap_cons_none hop, ih]
      | some f =>
          rw [List.filter_cons_of_pos (by simp [isOperation_eq, hop]),
            List.filterMap_cons_some hop, List.map_cons, ih, eq_func_of_operation? hop]

/-! ### Names -/

/-- `short` is `name` without the first `stem_` in it, and `name` itself if there is none or nothing
would remain. -/
def IsShortName (stem name short : Ident) : Prop :=
  (¬(stem ++ "_").toList <:+: name.toList ∧ short = name) ∨
    ∃ before after, Text.FirstAt (stem ++ "_").toList name.toList before after ∧
      short = if before ++ after = [] then name else String.ofList (before ++ after)

theorem ofList_eq_empty_iff {cs : List Char} : String.ofList cs = "" ↔ cs = [] := by
  rw [← String.ofList_nil, String.ofList_inj]

theorem isShortName_methodName (stem name : Ident) :
    IsShortName stem name (methodName name stem) := by
  by_cases h : (stem ++ "_").toList <:+: name.toList
  · right
    obtain ⟨found, hfound⟩ := Option.ne_none_iff_exists'.mp (Text.cutAt?_eq_none_iff.not_left.mpr h)
    have hfirst : Text.FirstAt (stem ++ "_").toList name.toList found.1 found.2 :=
      Text.cutAt?_eq_some_iff.mp hfound
    refine ⟨found.1, found.2, hfirst, ?_⟩
    rw [methodName, Text.eraseFirst_of_firstAt hfirst]
    simp only [ofList_eq_empty_iff]
  · left
    refine ⟨h, ?_⟩
    rw [methodName, Text.eraseFirst_of_not_infix h]
    exact ite_self name

/-! ### Bodies -/

/-- Where a field is taken of the parameter, it is taken of the receiver. -/
def toSelf (param : Ident) (role : PathRole) (p : Path) : Path :=
  if role = .base ∧ p = .of param then .of "self" else p

/-- Only the base of a field access is changed. -/
def receiverRule (param : Ident) : PathRule where
  type _ := none
  value _ := none
  base p := if p.isIdent param then some (.of "self") else none
  literal _ := none
  once h := nomatch h

theorem isIdent_iff {p : Path} {name : Ident} : p.isIdent name = true ↔ p = .of name := by
  cases p
  simp [Path.isIdent, Path.of]

theorem redirect?_eq (param : Ident) (e : Expr) :
    redirect? param e = (receiverRule param).onExpr? e := by
  cases e with
  | field base name =>
      cases base with
      | path p => by_cases h : p.isIdent param = true <;>
          simp [redirect?, PathRule.onExpr?, receiverRule, h]
      | _ => rfl
  | _ => rfl

theorem redirecting_eq (param : Ident) : redirecting param = (receiverRule param).replacer := by
  have hty : ∀ t, (receiverRule param).onTy? t = none := by
    intro t
    cases t <;> rfl
  simp only [redirecting, PathRule.replacer, redirect?_eq, hty]

theorem outcome_receiverRule (param : Ident) : (receiverRule param).outcome = toSelf param := by
  funext role p
  cases role with
  | base =>
      by_cases h : p.isIdent param = true
      · obtain rfl := isIdent_iff.mp h
        simp [PathRule.outcome, PathRule.answer, receiverRule, toSelf, h]
      · have hne : p ≠ .of param := fun heq => h (isIdent_iff.mpr heq)
        simp [PathRule.outcome, PathRule.answer, receiverRule, toSelf, h, hne]
  | _ => simp [PathRule.outcome, PathRule.answer, receiverRule, toSelf]

theorem redirected_eq (param : Ident) (b : Block) :
    redirected param b = Paths.mapStmts (toSelf param) b := by
  simp only [redirected, Block.replace, Replaced.ofWalk, redirecting_eq, PathRule.walkStmts_eq,
    outcome_receiverRule]

theorem toSelf_ne {param : Ident} (hparam : param ≠ "self") (p : Path) :
    toSelf param .base p ≠ .of param := by
  unfold toSelf
  split
  · intro h
    exact hparam (List.cons.inj (congrArg Path.segments h)).1.symm
  · next h =>
    intro heq
    exact h ⟨rfl, heq⟩

/-! ### Conversion -/

/-- `g` is `f` with the receiver in the place of its first parameter. -/
structure ConvertsTo (stem : String) (f g : Func) : Prop where
  name : IsShortName stem f.name g.name
  rest : ∃ mutable param ty params, param ≠ "" ∧
    f.params = ⟨.ident mutable param, ty⟩ :: params ∧
    g = { f with
      name := g.name
      pub := true
      receiver := some { ref := true, mutable := true }
      params := params
      body := Paths.mapStmts? (toSelf param) f.body } ∧
    (param ≠ "self" → (.base, .of param) ∉ g.bodyPaths)

theorem not_mem_bodyPaths_toSelf {param : Ident} (hparam : param ≠ "self") {f g : Func}
    (hbody : g.body = Paths.mapStmts? (toSelf param) f.body) :
    (PathRole.base, Path.of param) ∉ g.bodyPaths := by
  intro hmem
  rw [Func.bodyPaths, hbody, Paths.ofStmts?_mapStmts?] at hmem
  obtain ⟨x, -, hx⟩ := List.mem_map.mp hmem
  obtain ⟨hrole, hpath⟩ := Prod.mk.inj hx
  rw [hrole] at hpath
  exact toSelf_ne hparam x.2 hpath

theorem IsMethodOf.convertsTo {stem : String} {f g : Func} (h : IsMethodOf stem f g) :
    ConvertsTo stem f g := by
  obtain ⟨mutable, param, ty, hparam, hparams, hbody⟩ := h.params
  have hbody' : g.body = Paths.mapStmts? (toSelf param) f.body := by
    rw [hbody]
    cases f.body with
    | none => rfl
    | some b => exact congrArg some (redirected_eq param b)
  refine ⟨?_, mutable, param, ty, g.params, hparam, hparams, ?_, ?_⟩
  · rw [h.name]
    exact isShortName_methodName stem f.name
  · rw [← hbody', ← h.receiver, ← h.pub]
    obtain ⟨name, pub, isAsync, attrs, receiver, params, ret, body⟩ := g
    simp only [Func.mk.injEq, true_and]
    exact ⟨h.isAsync, h.attrs, h.ret, trivial⟩
  · intro hself
    exact not_mem_bodyPaths_toSelf hself hbody'

/-! ### The rest of the module -/

/-- The structs and impl blocks that bear a name. -/
def bears (name : Ident) : Decl → Bool
  | .struct s => s.name == name
  | .impl i => i.self == name
  | _ => false

/-- The declarations that have nothing to do with the type of the given name. -/
def besides (name : Ident) (ds : List Decl) : List Decl := ds.filter fun d => !bears name d

variable {ds es : List Decl} {name : Ident}

theorem besides_append : besides name (ds ++ es) = besides name ds ++ besides name es :=
  List.filter_append ds es

theorem besides_cons_of_bears {d : Decl} (h : bears name d = true) :
    besides name (d :: ds) = besides name ds :=
  List.filter_cons_of_neg (by simp [h])

theorem besides_filter_waiting :
    besides name (ds.filter fun d => (Module.waiting? name d).isNone) = besides name ds := by
  unfold besides
  rw [List.filter_filter]
  apply List.filter_congr
  intro d _
  cases d with
  | impl i => by_cases h : i.self = name <;> simp [bears, Module.waiting?, h]
  | _ => simp [Module.waiting?]

theorem besides_of_holds {before after : List Decl} {s : Struct}
    (h : Module.Holds ds before s after) :
    besides s.name ds = besides s.name before ++ besides s.name after := by
  rw [h.decls, besides_append, besides_cons_of_bears (by simp [bears])]

/-- A struct without blocks that is pushed is there afterwards, and what has nothing to do with its
name is as it was. -/
theorem exists_holds_besides {s : Struct} (hs : s.impls = [])
    (hp : Module.pushDecl ds (.struct s) = (es, .ok ())) :
    ∃ before s' after, Module.Holds es before s' after ∧ s'.name = s.name ∧
      besides s.name es = besides s.name ds := by
  rcases Module.holds_of_pushDecl hs hp with
    ⟨-, hholds⟩ | ⟨rfl, before, s', after, hholds, hname, -⟩
  · refine ⟨_, _, _, hholds, rfl, ?_⟩
    have hsplit := besides_of_holds hholds
    rw [besides_filter_waiting] at hsplit
    exact hsplit.trans (List.append_nil _)
  · exact ⟨before, s', after, hholds, hname, rfl⟩

/-- A struct without blocks and a block for it leave alone what has nothing to do with their
name. -/
theorem besides_pushAll {m m' : Module} {s : Struct} {i : Impl} (hs : s.impls = [])
    (hself : i.self = s.name) (h : m.pushAll [.struct s, .impl i] = (m', .ok ())) :
    { m' with decls := besides s.name m'.decls } = { m with decls := besides s.name m.decls } := by
  obtain ⟨ds, hds, rfl⟩ := Module.exists_of_pushAll_pair h
  obtain ⟨before, s', after, hholds, hname, hbesides⟩ := exists_holds_besides hs hds
  -- the struct is there when the block comes, so that the block is not left waiting
  have hfinal := hholds.pushImpl (hself.trans hname.symm)
  have hblock : besides s'.name (Module.pushImpl ds i) = besides s'.name ds := by
    have hafter := besides_of_holds hfinal
    rw [besides_of_holds hholds]
    exact hafter
  rw [hname] at hblock
  simp only [hblock, hbesides]

/-! ### The facade -/

variable (m : Module) (opts : Options)

/-- What is generated for a module, when `fs` are the functions taken up and `methods` what they
became. -/
structure Converts (fs methods : List Func) (m' : Module) (r : Result) : Prop where
  selected : m.decls.filter (IsSelected (stemOf m opts) ·) = fs.map .func
  converted : List.Forall₂ (ConvertsTo (stemOf m opts)) fs methods
  result : r = ⟨structName (stemOf m opts), methods.map Func.name⟩
  /-- the struct and its block are pushed to the module without the functions -/
  pushed : (m.without (IsSelected (stemOf m opts) ·)).pushAll
      [.struct (facadeStruct opts (stemOf m opts)),
        .impl (facadeImpl opts (stemOf m opts) methods)] = (m', .ok ())
  /-- nothing else is changed or moved -/
  others : { m' with decls := besides (structName (stemOf m opts)) m'.decls } =
    { m with
      decls := (besides (structName (stemOf m opts)) m.decls).filter
        (¬IsSelected (stemOf m opts) ·) }

variable {m opts}

/-- A facade that is generated holds the constructor and what the selected functions convert to, in
order, and the result names these methods.  It takes the selected functions out of the module and
leaves everything alone that does not bear the name of its struct. -/
theorem generate_exact {m' : Module} {r : Result} (h : generate m opts = (m', .ok r)) :
    ∃ fs methods, Converts m opts fs methods m' r := by
  obtain ⟨-, methods, hmethods, hpush, hr⟩ := generate_eq_ok_iff.mp h
  have hbesides := besides_pushAll rfl rfl hpush
  have hfilter : besides (structName (stemOf m opts))
      (m.without (isOperation (stemOf m opts))).decls =
        (besides (structName (stemOf m opts)) m.decls).filter
          (¬IsSelected (stemOf m opts) ·) := by
    rw [Module.without, besides, besides, List.filter_filter, List.filter_filter,
      isOperation_eq_decide]
    simp only [Bool.and_comm, decide_not]
  refine ⟨operations m opts, methods, ?_, ?_, hr, ?_, ?_⟩
  · rw [← isOperation_eq_decide]
    exact filter_isOperation (stemOf m opts) m.decls
  · exact (forall₂_isMethodOf m opts hmethods).imp fun _ _ => IsMethodOf.convertsTo
  · rw [← isOperation_eq_decide]
    exact hpush
  · rw [facadeStruct_name, hfilter] at hbesides
    exact hbesides

/-- An operation that reads its first parameter in a binding, in a condition and in a macro. -/
def readyPet : Module where
  name := "pet_api"
  decls :=
    [.func { name := "ping" },
      .func
        { name := "pet_find"
          params := [⟨.ident false "config", .named "Config"⟩, ⟨.ident false "id", .named "u64"⟩]
          body := some
            [.bind "url" none (some (.ref false (.field (.path (.of "config")) "url"))),
              .expr (.cond (.method (.field (.path (.of "config")) "client") "ready" [])
                [.expr (.macroCall (.of "log") [.field (.path (.of "config")) "level"]) true]
                none) false] }]

theorem generate_exact_readyPet :
    (generate readyPet .usual).2 = .ok ⟨"PetApi", ["find"]⟩ ∧
      ∃ fs methods, Converts readyPet .usual fs methods (generate readyPet .usual).1
        ⟨"PetApi", ["find"]⟩ := by
  have hok : (generate readyPet .usual).2 = .ok ⟨"PetApi", ["find"]⟩ := by decide +kernel
  exact ⟨hok, generate_exact (Prod.ext rfl hok)⟩

end Facade
end ClientLoom
