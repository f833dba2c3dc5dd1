import ClientLoom.Proofs.Module.WellFormed
import ClientLoom.Proofs.Outcome

/-! # Where pushed functions go

An impl block that is pushed ends among the blocks that the module holds for its type, attached
or waiting (`Module.blocksFor`).  The block of the same trait, if there is one, absorbs it: of its
functions those join whose names are new (`Impl.length_absorb_eq_iff`); otherwise the block is
added with all its functions (`Impl.length_fns_attach_eq_iff`).

A type without blocks and a block for it, pushed one after the other, leave the module with the
type, the block attached to it, and everything else as it was (`Module.pushAll_pair`). -/

namespace ClientLoom

namespace Impl

/-! ### Absorbing -/

/-- The functions can join a block: their names are new to it and to each other. -/
structure CanJoin (i : Impl) (fns : List Func) : Prop where
  distinct : (fns.map Func.name).Nodup
  new : ∀ f ∈ fns, f.name ∉ i.fns.map Func.name

theorem canJoin_iff_names {i : Impl} {fns : List Func} :
    i.CanJoin fns ↔
      (fns.map Func.name).Nodup ∧ ∀ name ∈ fns.map Func.name, name ∉ i.fns.map Func.name :=
  ⟨fun h => ⟨h.distinct, List.forall_mem_map.mpr h.new⟩,
    fun h => ⟨h.1, fun _ hf => h.2 _ (List.mem_map_of_mem hf)⟩⟩

theorem fn?_isSome_iff {i : Impl} {name : Ident} :
    (i.fn? name).isSome = true ↔ name ∈ i.fns.map Func.name := by
  simp [fn?, List.find?_isSome]

theorem addFn_of_mem {i : Impl} {f : Func} (h : f.name ∈ i.fns.map Func.name) : i.addFn f = i :=
  if_pos (fn?_isSome_iff.mpr h)

theorem addFn_of_not_mem {i : Impl} {f : Func} (h : f.name ∉ i.fns.map Func.name) :
    i.addFn f = { i with fns := i.fns ++ [f] } :=
  if_neg (fn?_isSome_iff.not.mpr h)

theorem length_fns_addFn_le (i : Impl) (f : Func) : (i.addFn f).fns.length ≤ i.fns.length + 1 := by
  by_cases h : f.name ∈ i.fns.map Func.name
  · rw [addFn_of_mem h]
    omega
  · simp [addFn_of_not_mem h]

theorem length_fns_foldl_addFn_le (i : Impl) (fns : List Func) :
    (fns.foldl addFn i).fns.length ≤ i.fns.length + fns.length := by
  induction fns generalizing i with
  | nil => exact Nat.le_refl _
  | cons f fns ih =>
      rw [List.foldl_cons, List.length_cons]
      have hrest := ih (i.addFn f)
      have hfirst := length_fns_addFn_le i f
      omega

theorem canJoin_cons_iff {i : Impl} {f : Func} {fns : List Func} :
    i.CanJoin (f :: fns) ↔
      f.name ∉ i.fns.map Func.name ∧ CanJoin { i with fns := i.fns ++ [f] } fns := by
  constructor
  · rintro ⟨hdistinct, hnew⟩
    obtain ⟨hf, hdistinct⟩ := List.nodup_cons.mp hdistinct
    refine ⟨hnew f List.mem_cons_self, hdistinct, fun g hg => ?_⟩
    have hgi := hnew g (List.mem_cons_of_mem _ hg)
    have hgf : g.name ≠ f.name := fun heq => hf (heq ▸ List.mem_map_of_mem hg)
    simpa using ⟨by simpa using hgi, hgf⟩
  · rintro ⟨hf, hdistinct, hnew⟩
    have hsplit : ∀ g ∈ fns, g.name ∉ i.fns.map Func.name ∧ g.name ≠ f.name := by
      intro g hg
      have := hnew g hg
      rw [List.map_append, List.mem_append, not_or] at this
      exact ⟨this.1, by simpa using this.2⟩
    refine ⟨List.nodup_cons.mpr ⟨fun hmem => ?_, hdistinct⟩, fun g hg => ?_⟩
    · obtain ⟨g, hg, heq⟩ := List.mem_map.mp hmem
      exact (hsplit g hg).2 heq
    · rcases List.mem_cons.mp hg with rfl | hg
      · exact hf
      · exact (hsplit g hg).1

/-- All functions join exactly when nothing is lost by number. -/
theorem length_foldl_addFn_eq_iff {i : Impl} {fns : List Func} :
    (fns.foldl addFn i).fns.length = i.fns.length + fns.length ↔ i.CanJoin fns := by
  induction fns generalizing i with
  | nil => exact ⟨fun _ => ⟨.nil, by simp⟩, fun _ => rfl⟩
  | cons f fns ih =>
      rw [List.foldl_cons, List.length_cons, canJoin_cons_iff]
      by_cases h : f.name ∈ i.fns.map Func.name
      · have hle := length_fns_foldl_addFn_le i fns
        rw [addFn_of_mem h]
        exact ⟨fun heq => by omega, fun hjoin => absurd h hjoin.1⟩
      · rw [addFn_of_not_mem h, ← ih, List.length_append, List.length_singleton, Nat.add_right_comm]
        exact ⟨fun heq => ⟨h, by omega⟩, fun heq => by omega⟩

theorem foldl_addFn_of_canJoin {i : Impl} {fns : List Func} (h : i.CanJoin fns) :
    fns.foldl addFn i = { i with fns := i.fns ++ fns } := by
  induction fns generalizing i with
  | nil => simp
  | cons f fns ih =>
      obtain ⟨hf, hrest⟩ := canJoin_cons_iff.mp h
      rw [List.foldl_cons, addFn_of_not_mem hf, ih hrest, List.append_assoc, List.singleton_append]

theorem absorb_of_canJoin {i other : Impl} (h : i.CanJoin other.fns) :
    i.absorb other = { i with fns := i.fns ++ other.fns } :=
  foldl_addFn_of_canJoin h

theorem length_absorb_eq_iff {i other : Impl} :
    (i.absorb other).fns.length = i.fns.length + other.fns.length ↔ i.CanJoin other.fns :=
  length_foldl_addFn_eq_iff

/-! ### Attaching -/

/-- The functions of blocks, in order. -/
def allFns (blocks : List Impl) : List Func := blocks.flatMap (·.fns)

/-- Nothing of a block gets lost among the blocks of its type. -/
def CanAttach (blocks : List Impl) (new : Impl) : Prop :=
  ∀ b, findKey? blocks new.traitKey = some b → b.CanJoin new.fns

theorem findKey?_cons_of_eq {b : Impl} {key : String} (h : b.traitKey = key) (blocks : List Impl) :
    findKey? (b :: blocks) key = some b :=
  List.find?_cons_of_pos (beq_iff_eq.mpr h)

theorem findKey?_cons_of_ne {b : Impl} {key : String} (h : b.traitKey ≠ key)
    (blocks : List Impl) : findKey? (b :: blocks) key = findKey? blocks key :=
  List.find?_cons_of_neg (fun heq => h (beq_iff_eq.mp heq))

theorem attach_cons_of_eq {b new : Impl} (h : b.traitKey = new.traitKey) (blocks : List Impl) :
    attach (b :: blocks) new = b.absorb new :: blocks :=
  if_pos (beq_iff_eq.mpr h)

theorem attach_cons_of_ne {b new : Impl} (h : b.traitKey ≠ new.traitKey) (blocks : List Impl) :
    attach (b :: blocks) new = b :: attach blocks new :=
  if_neg (fun heq => h (beq_iff_eq.mp heq))

theorem length_fns_attach_le (blocks : List Impl) (new : Impl) :
    (allFns (attach blocks new)).length ≤ (allFns blocks).length + new.fns.length := by
  unfold allFns
  induction blocks with
  | nil => simp [attach]
  | cons b blocks ih =>
      by_cases h : b.traitKey = new.traitKey
      · rw [attach_cons_of_eq h, List.flatMap_cons, List.flatMap_cons, List.length_append,
          List.length_append]
        have hle : (b.absorb new).fns.length ≤ b.fns.length + new.fns.length :=
          length_fns_foldl_addFn_le b new.fns
        omega
      · rw [attach_cons_of_ne h, List.flatMap_cons, List.flatMap_cons, List.length_append,
          List.length_append]
        omega

/-- Attaching a block adds all its functions exactly when they can join the block of their
trait. -/
theorem length_fns_attach_eq_iff {blocks : List Impl} {new : Impl} :
    (allFns (attach blocks new)).length = (allFns blocks).length + new.fns.length ↔
      CanAttach blocks new := by
  unfold allFns CanAttach
  induction blocks with
  | nil => simp [attach, findKey?]
  | cons b blocks ih =>
      by_cases h : b.traitKey = new.traitKey
      · rw [attach_cons_of_eq h, findKey?_cons_of_eq h, List.flatMap_cons, List.flatMap_cons,
          List.length_append, List.length_append]
        have hiff : (b.absorb new).fns.length = b.fns.length + new.fns.length ↔ b.CanJoin new.fns :=
          length_absorb_eq_iff
        constructor
        · intro heq b' hb'
          obtain rfl := Option.some.inj hb'
          exact hiff.mp (by omega)
        · intro hjoin
          have := hiff.mpr (hjoin b rfl)
          omega
      · rw [attach_cons_of_ne h, findKey?_cons_of_ne h, List.flatMap_cons, List.flatMap_cons,
          List.length_append, List.length_append, ← ih]
        omega

/-- The block of a trait after a block for it was attached. -/
theorem findKey?_attach (blocks : List Impl) (new : Impl) :
    findKey? (attach blocks new) new.traitKey =
      some (match findKey? blocks new.traitKey with
        | some b => b.absorb new
        | none => new) := by
  induction blocks with
  | nil => exact findKey?_cons_of_eq rfl []
  | cons b blocks ih =>
      by_cases h : b.traitKey = new.traitKey
      · rw [attach_cons_of_eq h, findKey?_cons_of_eq h,
          findKey?_cons_of_eq ((absorb_traitKey b new).trans h)]
      · rw [attach_cons_of_ne h, findKey?_cons_of_ne h, findKey?_cons_of_ne h, ih]

/-- After a block was attached without loss, the block of its trait holds its functions. -/
theorem CanAttach.exists_block {blocks : List Impl} {new : Impl} (h : CanAttach blocks new) :
    ∃ b, findKey? (attach blocks new) new.traitKey = some b ∧ new.fns ⊆ b.fns := by
  rw [findKey?_attach]
  cases hb : findKey? blocks new.traitKey with
  | none => exact ⟨new, rfl, List.Subset.refl _⟩
  | some b =>
      refine ⟨b.absorb new, rfl, ?_⟩
      rw [absorb_of_canJoin (h b hb)]
      exact List.subset_append_right _ _

/-- Blocks for different traits are attached as they are. -/
theorem attachAll_of_nodup {blocks more : List Impl}
    (h : ((blocks ++ more).map traitKey).Nodup) : attachAll blocks more = blocks ++ more := by
  unfold attachAll
  induction more generalizing blocks with
  | nil => simp
  | cons new more ih =>
      have hattach : attach blocks new = blocks ++ [new] := by
        have hnew : ∀ b ∈ blocks, b.traitKey ≠ new.traitKey := by
          intro b hb
          rw [List.map_append, List.map_cons] at h
          exact (List.nodup_append.mp h).2.2 _ (List.mem_map_of_mem hb) _ List.mem_cons_self
        clear h ih
        induction blocks with
        | nil => rfl
        | cons b blocks ih =>
            obtain ⟨hb, hblocks⟩ := List.forall_mem_cons.mp hnew
            rw [attach_cons_of_ne hb, ih hblocks, List.cons_append]
      rw [List.foldl_cons, hattach, ih (by rwa [List.append_assoc]), List.append_assoc]
      rfl

end Impl

/-! ### The blocks of a type in a module -/

/-- The function of a declaration that is one. -/
def Decl.func? : Decl → Option Func
  | .func f => some f
  | _ => none

@[simp] theorem Decl.mapImpls_id (d : Decl) : d.mapImpls (fun blocks => blocks) = d := by
  cases d <;> rfl

namespace Module

/-- The free functions of a module, in order. -/
def freeFuncs (m : Module) : List Func := m.decls.filterMap Decl.func?

/-- The impl blocks that declarations hold for the type called `name`: its own when it is
declared, and otherwise those that wait for it. -/
def blocksFor (ds : List Decl) (name : Ident) : List Impl :=
  match typeDecl? ds name with
  | some d => d.impls
  | none => ds.filterMap (waiting? name)

variable {ds es : List Decl} {name : Ident}

/-- Declarations with a struct among them that is the first type of its name. -/
structure Holds (ds before : List Decl) (s : Struct) (after : List Decl) : Prop where
  decls : ds = before ++ .struct s :: after
  first : ∀ d ∈ before, declares s.name d = false

theorem Holds.struct? {before after : List Decl} {s : Struct} {m : Module}
    (h : Holds m.decls before s after) : m.struct? s.name = some s := by
  have hbefore : before.findSome? (structNamed? s.name) = none := by
    rw [List.findSome?_eq_none_iff]
    intro d hd
    cases d with
    | struct s' => simpa [declares, Decl.typeName?, structNamed?] using h.first _ hd
    | _ => rfl
  rw [Module.struct?, h.decls, List.findSome?_append, hbefore, Option.none_or,
    List.findSome?_cons_of_isSome]
  · simp [structNamed?]
  · simp [structNamed?]

/-- A block for a struct goes to the struct. -/
theorem Holds.pushImpl {before after : List Decl} {s : Struct} {i : Impl}
    (h : Holds ds before s after) (hself : i.self = s.name) :
    Holds (pushImpl ds i) before { s with impls := Impl.attach s.impls i } after := by
  have hdeclares : declares s.name (.struct s) = true := by simp [declares, Decl.typeName?]
  have hsome : (typeDecl? ds i.self).isSome = true := by
    rw [typeDecl?, List.find?_isSome, h.decls]
    exact ⟨.struct s, by simp, hself ▸ hdeclares⟩
  refine ⟨?_, h.first⟩
  rw [Module.pushImpl, if_pos hsome, attachTo, hself, h.decls,
    modifyFirst_append h.first hdeclares]
  rfl

/-- The functions and free functions of declarations apart from one struct. -/
theorem Holds.funcs_eq {before after : List Decl} {s : Struct} (h : Holds ds before s after) :
    ds.flatMap Decl.funcs =
      before.flatMap Decl.funcs ++ (Impl.allFns s.impls ++ after.flatMap Decl.funcs) := by
  rw [h.decls, List.flatMap_append, List.flatMap_cons]
  rfl

theorem Holds.freeFuncs_eq {before after : List Decl} {s : Struct} (h : Holds ds before s after) :
    ds.filterMap Decl.func? = before.filterMap Decl.func? ++ after.filterMap Decl.func? := by
  rw [h.decls, List.filterMap_append, List.filterMap_cons_none rfl]

/-! ### Pushing a type without blocks -/

theorem attachTo_nil (ds : List Decl) (name : Ident) : attachTo ds name [] = ds := by
  have hnone : (Decl.mapImpls fun blocks => Impl.attachAll blocks []) = id :=
    funext fun d => d.mapImpls_id
  rw [attachTo, hnone]
  induction ds with
  | nil => rfl
  | cons d ds ih =>
      rw [modifyFirst]
      split
      · rfl
      · rw [ih]

/-- Waiting blocks for one type are for different traits. -/
theorem Tidy.nodup_traitKey_waiting (h : Tidy ds) (name : Ident) :
    ((ds.filterMap (waiting? name)).map Impl.traitKey).Nodup := by
  have hsub : ((ds.filterMap (waiting? name)).map fun i => (i.self, i.traitKey)).Sublist
      (ds.filterMap Decl.waitKey?) := by
    clear h
    induction ds with
    | nil => exact .slnil
    | cons d ds ih =>
        cases d with
        | impl i =>
            by_cases hi : i.self = name
            · simpa [waiting?, hi, Decl.waitKey?] using ih
            · simpa [waiting?, hi, Decl.waitKey?] using ih.cons _
        | _ =>
            rw [List.filterMap_cons_none rfl, List.filterMap_cons_none rfl]
            exact ih
  have hkeys := h.waitersDistinct.sublist hsub
  have hself : ∀ i ∈ ds.filterMap (waiting? name), i.self = name := by
    intro i hi
    obtain ⟨d, -, hd⟩ := List.mem_filterMap.mp hi
    cases d with
    | impl j =>
        simp only [waiting?] at hd
        split at hd
        · next hj => exact Option.some.inj hd ▸ beq_iff_eq.mp hj
        · cases hd
    | _ => cases hd
  have hmap : ((ds.filterMap (waiting? name)).map fun i => (i.self, i.traitKey)) =
      ((ds.filterMap (waiting? name)).map Impl.traitKey).map fun key => (name, key) := by
    rw [List.map_map]
    exact List.map_congr_left fun i hi => by simp [hself i hi]
  rw [hmap] at hkeys
  exact hkeys.of_map _

theorem freeFuncs_filter_waiting (ds : List Decl) (name : Ident) :
    (ds.filter fun d => (waiting? name d).isNone).filterMap Decl.func? =
      ds.filterMap Decl.func? := by
  rw [List.filterMap_filter]
  congr 1
  funext d
  cases d <;> simp [waiting?, Decl.func?]

/-- Functions are in the blocks that wait for a type or elsewhere. -/
theorem length_funcs_filter_waiting (ds : List Decl) (name : Ident) :
    ((ds.filter fun d => (waiting? name d).isNone).flatMap Decl.funcs).length +
        (Impl.allFns (ds.filterMap (waiting? name))).length =
      (ds.flatMap Decl.funcs).length := by
  unfold Impl.allFns
  induction ds with
  | nil => rfl
  | cons d ds ih =>
      cases hd : waiting? name d with
      | none =>
          rw [List.filter_cons_of_pos (by simp [hd]), List.filterMap_cons_none hd,
            List.flatMap_cons, List.flatMap_cons, List.length_append, List.length_append]
          omega
      | some i =>
          have hfuncs : d.funcs = i.fns := by
            cases d with
            | impl j =>
                simp only [waiting?] at hd
                split at hd
                · exact congrArg Impl.fns (Option.some.inj hd)
                · cases hd
            | _ => cases hd
          rw [List.filter_cons_of_neg (by simp [hd]), List.filterMap_cons_some hd,
            List.flatMap_cons, List.flatMap_cons, List.length_append, List.length_append, hfuncs]
          omega

/-- Where a struct without blocks is after it was pushed: at the end when its name is new, with the
blocks that waited for it, and otherwise where the struct of its name was. -/
theorem holds_of_pushDecl {s : Struct} (hs : s.impls = [])
    (hp : pushDecl ds (.struct s) = (es, .ok ())) :
    (typeDecl? ds s.name = none ∧
      Holds es (ds.filter fun d => (waiting? s.name d).isNone)
        { s with impls := Impl.attachAll [] (ds.filterMap (waiting? s.name)) } []) ∨
    (es = ds ∧ ∃ before s' after, Holds ds before s' after ∧ s'.name = s.name ∧
      typeDecl? ds s.name = some (.struct s')) := by
  unfold pushDecl pushType at hp
  cases hold : typeDecl? ds s.name with
  | none =>
      simp only [hold] at hp
      obtain ⟨rfl, -⟩ := Prod.mk.inj hp
      refine .inl ⟨rfl, ?_, ?_⟩
      · rw [appendType, Decl.mapImpls, hs]
      · intro d hd
        have hnot := List.find?_eq_none.mp hold d (List.mem_filter.mp hd).1
        simpa using hnot
  | some old =>
      simp only [hold] at hp
      split at hp
      · next hkind =>
        obtain ⟨rfl, -⟩ := Prod.mk.inj hp
        rw [hs, attachTo_nil]
        obtain ⟨hdeclares, before, after, hsplit, hbefore⟩ :=
          List.find?_eq_some_iff_append.mp hold
        cases old with
        | struct s' =>
            have hname : s'.name = s.name := by
              simpa [declares, Decl.typeName?] using hdeclares
            refine .inr ⟨rfl, before, s', after, ⟨hsplit, ?_⟩, hname, rfl⟩
            intro d hd
            rw [hname]
            simpa using hbefore d hd
        | _ => cases hkind
      · cases (Prod.mk.inj hp).2

/-- A struct without blocks that was pushed has the blocks that were held for its name, and no
function moved anywhere else. -/
theorem exists_holds_of_pushDecl {s : Struct} (h : Tidy ds) (hs : s.impls = [])
    (hp : pushDecl ds (.struct s) = (es, .ok ())) :
    ∃ before s' after, Holds es before s' after ∧ s'.name = s.name ∧
      s'.impls = blocksFor ds s.name ∧
      (es.flatMap Decl.funcs).length = (ds.flatMap Decl.funcs).length ∧
      es.filterMap Decl.func? = ds.filterMap Decl.func? := by
  unfold blocksFor
  rcases holds_of_pushDecl hs hp with ⟨hnew, hholds⟩ | ⟨rfl, before, s', after, hholds, hname, hold⟩
  · have hattach : Impl.attachAll [] (ds.filterMap (waiting? s.name)) =
        ds.filterMap (waiting? s.name) := by
      rw [Impl.attachAll_of_nodup (h.nodup_traitKey_waiting s.name), List.nil_append]
    rw [hattach] at hholds
    rw [hnew]
    refine ⟨_, _, _, hholds, rfl, rfl, ?_, ?_⟩
    · rw [hholds.funcs_eq, ← length_funcs_filter_waiting ds s.name]
      simp
    · rw [hholds.freeFuncs_eq, freeFuncs_filter_waiting]
      simp
  · rw [hold]
    exact ⟨before, s', after, hholds, hname, rfl, rfl, rfl⟩

theorem exists_of_pushAll_pair {m m' : Module} {s : Struct} {i : Impl}
    (h : m.pushAll [.struct s, .impl i] = (m', .ok ())) :
    ∃ es, pushDecl m.decls (.struct s) = (es, .ok ()) ∧
      { m with decls := pushImpl es i } = m' := by
  rcases push_cases m (.struct s) with ⟨es, hes, hpush⟩ | ⟨f, hpush, -⟩
  · rw [pushAll_cons_of_ok hpush] at h
    exact ⟨es, hes, (Prod.mk.inj h).1⟩
  · rw [pushAll_cons_of_error hpush] at h
    cases (Prod.mk.inj h).2

/-- A struct without blocks and a block for it, pushed one after the other: the struct is there,
with the block attached to those that were held for its name.  No free function changes, and the
number of functions changes as the attached blocks do. -/
theorem pushAll_pair {m m' : Module} {s : Struct} {i : Impl} (hm : m.WellFormed)
    (hs : s.impls = []) (hself : i.self = s.name)
    (h : m.pushAll [.struct s, .impl i] = (m', .ok ())) :
    (∃ s', m'.struct? s.name = some s' ∧
        s'.impls = Impl.attach (blocksFor m.decls s.name) i) ∧
      m'.funcs.length + (Impl.allFns (blocksFor m.decls s.name)).length =
        m.funcs.length + (Impl.allFns (Impl.attach (blocksFor m.decls s.name) i)).length ∧
      m'.freeFuncs = m.freeFuncs := by
  obtain ⟨es, hes, rfl⟩ := exists_of_pushAll_pair h
  obtain ⟨before, s₁, after, hholds, hname, hblocks, hcount, hfree⟩ :=
    exists_holds_of_pushDecl hm hs hes
  have hfinal := hholds.pushImpl (hself.trans hname.symm)
  rw [hblocks] at hfinal
  refine ⟨⟨_, hname ▸ hfinal.struct? (m := { m with decls := _ }), rfl⟩, ?_, ?_⟩
  · unfold funcs
    rw [← hcount, hholds.funcs_eq, hfinal.funcs_eq, hblocks]
    simp only [List.length_append]
    omega
  · unfold freeFuncs
    rw [← hfree, hholds.freeFuncs_eq, hfinal.freeFuncs_eq]

end Module
end ClientLoom
