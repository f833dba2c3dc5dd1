import ClientLoom.Proofs.Module.Offers

/-! # The closed form of pushing

What comes of pushing declarations as a dump lists them, types without impl blocks, can be written
down without pushing anything (`closedForm`).  The imports come first, each at its first place,
then everything else at its first place (`arrange`), and every type has the blocks that were
pushed for it, before or after the type itself (`gathered`).  Of the blocks for one trait the first
gives its place, its attributes and its functions, and the later ones add the functions whose names
are new (`Impl.gather`).

Main statement: pushing to an empty module gives the closed form, and if kinds of types contradict
each other, it stops at the first that does with the closed form of what came before
(`pushAll_closedForm`).  Step and run: the blocks that are held for a type grow by the block that is
pushed for it, whether the type is there or not (`blocksFor_pushDecl`), so after a run they are what
attaching all blocks for the type gives (`Makes.blocksFor_eq`).  Together with the outline they
determine the module (`map_complete_outline`). -/

namespace ClientLoom

namespace Impl

/-! ### Gathering blocks -/

/-- The first block of every trait, in order. -/
def firstOfEachTrait (blocks : List Impl) : List Impl :=
  blocks.eraseDupsBy (·.traitKey == ·.traitKey)

/-- The functions whose names are not among the given ones, of every name the first. -/
def newTo (names : List Ident) (fns : List Func) : List Func :=
  (fns.filter (·.name ∉ names)).eraseDupsBy (·.name == ·.name)

/-- A block with the functions of later blocks whose names are new. -/
def joined (first : Impl) (later : List Impl) : Impl :=
  { first with fns := first.fns ++ newTo (first.fns.map Func.name) (later.flatMap (·.fns)) }

/-- The blocks of one trait. -/
def ofTrait (key : String) (blocks : List Impl) : List Impl := blocks.filter (·.traitKey = key)

/-- The blocks of all other traits. -/
def notOfTrait (key : String) (blocks : List Impl) : List Impl := blocks.filter (·.traitKey ≠ key)

/-- One block for every trait, where the first of the trait stands: the first with the functions of
the later ones whose names are new. -/
def gather (blocks : List Impl) : List Impl :=
  (firstOfEachTrait blocks).map fun first => first.joined (ofTrait first.traitKey blocks).tail

theorem newTo_cons_of_mem {names : List Ident} {f : Func} (h : f.name ∈ names) (fns : List Func) :
    newTo names (f :: fns) = newTo names fns := by
  rw [newTo, List.filter_cons_of_neg (by simpa using h), newTo]

theorem newTo_cons_of_not_mem {names : List Ident} {f : Func} (h : f.name ∉ names)
    (fns : List Func) : newTo names (f :: fns) = f :: newTo (names ++ [f.name]) fns := by
  rw [newTo, List.filter_cons_of_pos (by simpa using h), List.eraseDupsBy_cons,
    List.filter_filter, newTo]
  congr 3
  funext g
  by_cases hg : g.name ∈ names <;> simp [hg]

theorem foldl_addFn (fns : List Func) (b : Impl) :
    fns.foldl addFn b = { b with fns := b.fns ++ newTo (b.fns.map Func.name) fns } := by
  induction fns generalizing b with
  | nil => exact congrArg (fun l => { b with fns := l }) (List.append_nil _).symm
  | cons f fns ih =>
      rw [List.foldl_cons, ih]
      by_cases h : f.name ∈ b.fns.map Func.name
      · rw [addFn_of_mem h, newTo_cons_of_mem h]
      · rw [addFn_of_not_mem h, newTo_cons_of_not_mem h, List.map_append, List.map_singleton,
          List.append_assoc, List.singleton_append]

theorem foldl_absorb (later : List Impl) (b : Impl) : later.foldl absorb b = b.joined later := by
  rw [joined, ← foldl_addFn, List.foldl_flatMap]
  rfl

/-- Blocks that are attached behind a block join it or go on to the blocks behind it. -/
theorem attachAll_cons (b : Impl) (blocks more : List Impl) :
    attachAll (b :: blocks) more =
      b.joined (ofTrait b.traitKey more) :: attachAll blocks (notOfTrait b.traitKey more) := by
  rw [← foldl_absorb]
  unfold attachAll ofTrait notOfTrait
  induction more generalizing b blocks with
  | nil => rfl
  | cons new more ih =>
      rw [List.foldl_cons]
      by_cases h : new.traitKey = b.traitKey
      · rw [attach_cons_of_eq h.symm, ih, absorb_traitKey,
          List.filter_cons_of_pos (by simpa using h), List.filter_cons_of_neg (by simpa using h),
          List.foldl_cons]
      · rw [attach_cons_of_ne (Ne.symm h), ih, List.filter_cons_of_neg (by simpa using h),
          List.filter_cons_of_pos (by simpa using h), List.foldl_cons]

theorem firstOfEachTrait_cons (b : Impl) (blocks : List Impl) :
    firstOfEachTrait (b :: blocks) =
      b :: firstOfEachTrait (notOfTrait b.traitKey blocks) := by
  rw [firstOfEachTrait, List.eraseDupsBy_cons, firstOfEachTrait, notOfTrait]
  congr 3
  funext c
  by_cases hc : c.traitKey = b.traitKey <;> simp [hc]

theorem length_notOfTrait_lt (key : String) (blocks : List Impl) :
    (notOfTrait key blocks).length < blocks.length + 1 :=
  Nat.lt_succ_of_le (List.length_filter_le _ _)

theorem firstOfEachTrait_subset (blocks : List Impl) : firstOfEachTrait blocks ⊆ blocks := by
  cases blocks with
  | nil => exact List.Subset.refl _
  | cons b blocks =>
      have hlt := length_notOfTrait_lt b.traitKey blocks
      have hrest := firstOfEachTrait_subset (notOfTrait b.traitKey blocks)
      rw [firstOfEachTrait_cons]
      exact List.cons_subset_cons b fun c hc => List.mem_of_mem_filter (hrest hc)
termination_by blocks.length

theorem gather_cons (b : Impl) (blocks : List Impl) :
    gather (b :: blocks) =
      b.joined (ofTrait b.traitKey blocks) :: gather (notOfTrait b.traitKey blocks) := by
  have hown : ofTrait b.traitKey (b :: blocks) = b :: ofTrait b.traitKey blocks :=
    List.filter_cons_of_pos (by simp)
  have hother : ∀ c ∈ firstOfEachTrait (notOfTrait b.traitKey blocks),
      ofTrait c.traitKey (b :: blocks) = ofTrait c.traitKey (notOfTrait b.traitKey blocks) := by
    intro c hc
    have hne : c.traitKey ≠ b.traitKey := by
      simpa [notOfTrait] using (List.mem_filter.mp (firstOfEachTrait_subset _ hc)).2
    rw [ofTrait, List.filter_cons_of_neg (by simpa using hne.symm), ofTrait, notOfTrait,
      List.filter_filter]
    congr 1
    funext x
    by_cases hx : x.traitKey = c.traitKey <;> simp [hx, hne]
  rw [gather, firstOfEachTrait_cons, List.map_cons, hown, List.tail_cons, gather]
  exact congrArg _ (List.map_congr_left fun c hc => by rw [hother c hc])

/-- Attaching blocks one by one gathers them. -/
theorem attachAll_nil (blocks : List Impl) : attachAll [] blocks = gather blocks := by
  cases blocks with
  | nil => rfl
  | cons b blocks =>
      have hlt := length_notOfTrait_lt b.traitKey blocks
      rw [gather_cons, ← attachAll_nil (notOfTrait b.traitKey blocks), ← attachAll_cons]
      rfl
termination_by blocks.length

end Impl

namespace Module

variable {ds es items : List Decl} {d : Decl} {name : Ident}

/-! ### The blocks of a type during a run -/

/-- Declarations as a dump lists them: types come without impl blocks. -/
def Raw (items : List Decl) : Prop := ∀ d ∈ items, d.impls = []

theorem raw_concat_iff : Raw (items ++ [d]) ↔ Raw items ∧ d.impls = [] := by
  simp [Raw, or_imp, forall_and]

theorem flatMap_insertUse {β : Type} {g : Decl → List β} (u : Use) (h : g (.use u) = [])
    (ds : List Decl) : (insertUse u ds).flatMap g = ds.flatMap g := by
  induction ds with
  | nil => rw [insertUse, List.flatMap_singleton, h]; rfl
  | cons d ds ih =>
      unfold insertUse
      split
      · rw [List.flatMap_cons, List.flatMap_cons, ih]
      · rw [List.flatMap_cons, h, List.nil_append]

theorem waiting?_eq_some_iff {i : Impl} :
    waiting? name d = some i ↔ d = .impl i ∧ i.self = name := by
  cases d with
  | impl j =>
      by_cases hj : j.self = name
      · simp only [waiting?, hj, beq_self_eq_true, if_true, Option.some.injEq, Decl.impl.injEq]
        exact ⟨fun h => ⟨h, h ▸ hj⟩, And.left⟩
      · simp only [waiting?, beq_iff_eq, hj, if_false, reduceCtorEq, Decl.impl.injEq, false_iff]
        rintro ⟨rfl, h⟩
        exact hj h
  | _ => simp [waiting?]

/-- Waiting blocks take a further block as the blocks of a type do. -/
theorem filterMap_waiting_pushImpl {i : Impl} (h : typeDecl? ds i.self = none) :
    (pushImpl ds i).filterMap (waiting? i.self) =
      Impl.attach (ds.filterMap (waiting? i.self)) i := by
  have hnone : ¬ (typeDecl? ds i.self).isSome = true := by simp [h]
  rw [pushImpl, if_neg hnone]
  clear h hnone
  induction ds with
  | nil => simp [waiting?, Impl.attach]
  | cons d ds ih =>
      by_cases hlike : waitsLike i d = true
      · -- the first block of the trait is the one that takes the functions
        cases d with
        | impl j =>
            obtain ⟨hself, hkey⟩ : j.self = i.self ∧ j.traitKey = i.traitKey := by
              simpa [waitsLike] using hlike
            have hany : (Decl.impl j :: ds).any (waitsLike i) = true := by simp [hlike]
            rw [if_pos hany, modifyFirst, if_pos hlike, List.filterMap_cons_some,
              List.filterMap_cons_some, Impl.attach_cons_of_eq hkey]
            · simp [waiting?, hself]
            · simp [waiting?, hself]
        | _ => cases hlike
      · have hany : (d :: ds).any (waitsLike i) = ds.any (waitsLike i) := by simp [hlike]
        rw [hany, modifyFirst, if_neg hlike, List.cons_append, ← apply_ite (d :: ·)]
        cases hd : waiting? i.self d with
        | none => rw [List.filterMap_cons_none hd, List.filterMap_cons_none hd, ih]
        | some j =>
            obtain ⟨rfl, hself⟩ := waiting?_eq_some_iff.mp hd
            have hkey : j.traitKey ≠ i.traitKey :=
              fun hkey => hlike (by simp [waitsLike, hself, hkey])
            rw [List.filterMap_cons_some hd, List.filterMap_cons_some hd, ih,
              Impl.attach_cons_of_ne hkey]

/-- A block for a type that is declared goes to its blocks. -/
theorem blocksFor_pushImpl_self (i : Impl) :
    blocksFor (pushImpl ds i) i.self = Impl.attach (blocksFor ds i.self) i := by
  cases hd : typeDecl? ds i.self with
  | none =>
      have hnone : typeDecl? (pushImpl ds i) i.self = none := by
        rwa [typeDecl?_eq_none_iff_kindsOf, kindsOf_pushImpl, ← typeDecl?_eq_none_iff_kindsOf]
      simp only [blocksFor, hd, hnone, filterMap_waiting_pushImpl hd]
  | some d =>
      have hkeeps : ∀ d : Decl, declares i.self d = true →
          declares i.self (d.mapImpls (Impl.attachAll · [i])) = true := by
        intro d hd
        rw [declares_iff] at hd ⊢
        rw [← hd]
        cases d <;> rfl
      have hfound : typeDecl? (pushImpl ds i) i.self =
          some (d.mapImpls (Impl.attachAll · [i])) := by
        have hsome : (typeDecl? ds i.self).isSome = true := by rw [hd]; rfl
        rw [pushImpl, if_pos hsome, attachTo, typeDecl?, find?_modifyFirst hkeeps, ← typeDecl?, hd]
        rfl
      have hname := (mem_of_typeDecl? hd).2
      simp only [blocksFor, hd, hfound]
      cases d with
      | struct s => rfl
      | enum e => rfl
      | _ => cases hname

/-- A block for another type leaves the blocks of a type alone. -/
theorem flatMap_held_pushImpl {i : Impl} (h : i.self ≠ name) :
    (pushImpl ds i).flatMap (Decl.held name) = ds.flatMap (Decl.held name) := by
  unfold pushImpl
  split
  · refine flatMap_modifyFirst (fun d hd => ?_) ds
    have hname := declares_iff.mp hd
    rw [held_mapImpls_of_typeName? _ hname, held_of_typeName? hname, if_neg h, if_neg h]
  split
  · refine flatMap_modifyFirst (fun d hd => ?_) ds
    cases d with
    | impl j =>
        have hself : j.self = i.self := by simpa [waitsLike] using (Bool.and_eq_true_iff.mp hd).1
        simp [Decl.held, hself, h]
    | _ => rfl
  · rw [List.flatMap_append, List.flatMap_singleton, Decl.held, if_neg h, List.append_nil]

theorem flatMap_held_filter_waiting {n : Ident} (h : n ≠ name) (ds : List Decl) :
    (ds.filter fun e => (waiting? n e).isNone).flatMap (Decl.held name) =
      ds.flatMap (Decl.held name) := by
  induction ds with
  | nil => rfl
  | cons e ds ih =>
      cases he : waiting? n e with
      | none =>
          rw [List.filter_cons_of_pos (by simp [he]), List.flatMap_cons, List.flatMap_cons, ih]
      | some i =>
          rw [List.filter_cons_of_neg (by simp [he]), List.flatMap_cons, held_of_waiting? he,
            if_neg h, List.nil_append, ih]

/-- A type without blocks takes the blocks that waited for it. -/
theorem flatMap_held_appendType {n : Ident} (h : Tidy ds) (hd : d.typeName? = some n)
    (hraw : d.impls = []) (hnew : typeDecl? ds n = none) :
    (appendType ds n d).flatMap (Decl.held name) = ds.flatMap (Decl.held name) := by
  rw [appendType, List.flatMap_append, List.flatMap_singleton, held_mapImpls_of_typeName? _ hd,
    hraw]
  by_cases hname : n = name
  · subst hname
    have hheld : ∀ e ∈ ds, e.held n = (waiting? n e).toList := fun e he =>
      held_eq_waiting? fun heq => List.find?_eq_none.mp hnew e he (declares_iff.mpr heq)
    have hkept : (ds.filter fun e => (waiting? n e).isNone).flatMap (Decl.held n) = [] := by
      refine List.flatMap_eq_nil_iff.mpr fun e he => ?_
      obtain ⟨he, hnone⟩ := List.mem_filter.mp he
      rw [hheld e he, Option.isNone_iff_eq_none.mp hnone, Option.toList_none]
    rw [if_pos rfl, hkept, Impl.attachAll_of_nodup (h.nodup_traitKey_waiting n),
      List.nil_append, List.nil_append, List.flatMap_congr hheld,
      List.filterMap_eq_flatMap_toList]
  · rw [if_neg hname, List.append_nil, flatMap_held_filter_waiting hname]

/-- The blocks for a type grow by the block that is pushed for it, whether the type is there or
not. -/
theorem blocksFor_pushDecl (h : Tidy ds) (hraw : d.impls = []) (hp : pushDecl ds d = (es, .ok ()))
    (name : Ident) :
    blocksFor es name = Impl.attachAll (blocksFor ds name) (waiting? name d).toList := by
  have htraits : d.TraitsDistinct := by simp [Decl.TraitsDistinct, hraw]
  have hes : Tidy es := h.pushDecl htraits hp
  -- a declaration that is no block for the type moves blocks of the type at most
  have hother (hd : waiting? name d = none)
      (hsame : es.flatMap (Decl.held name) = ds.flatMap (Decl.held name)) :
      blocksFor es name = Impl.attachAll (blocksFor ds name) (waiting? name d).toList := by
    rw [hd, blocksFor_eq_flatMap hes.outline, blocksFor_eq_flatMap h.outline, hsame]
    rfl
  cases pushed_of_pushDecl hp with
  | useAgain _ => exact hother rfl rfl
  | useNew _ => exact hother rfl (flatMap_insertUse _ rfl ds)
  | typeNew hd hnew =>
      refine hother ?_ (flatMap_held_appendType h hd hraw hnew)
      cases d with
      | impl i => cases hd
      | _ => rfl
  | typeAgain hd _ _ =>
      refine hother ?_ (by rw [hraw, attachTo_nil])
      cases d with
      | impl i => cases hd
      | _ => rfl
  | impl i =>
      by_cases hself : i.self = name
      · subst hself
        simp only [blocksFor_pushImpl_self, waiting?, beq_self_eq_true, if_true]
        rfl
      · exact hother (by simp [waiting?, hself]) (flatMap_held_pushImpl hself)
  | func _ | verbatim _ => exact hother rfl (by rw [List.flatMap_append]; exact List.append_nil _)

/-! ### The closed form -/

theorem Makes.tidy (hraw : Raw items) (h : Makes items ds) : Tidy ds := by
  refine h.induction (P := fun items ds => Raw items → Tidy ds) (fun _ => tidy_nil) ?_ hraw
  intro items ds d es _ ih hd hraw
  obtain ⟨hitems, himpls⟩ := raw_concat_iff.mp hraw
  have htraits : d.TraitsDistinct := by simp [Decl.TraitsDistinct, himpls]
  exact (ih hitems).pushDecl htraits hd

/-- The blocks that are pushed for a type, gathered by trait. -/
def gathered (items : List Decl) (name : Ident) : List Impl :=
  Impl.gather (items.filterMap (waiting? name))

/-- After a run a type has all blocks that were pushed for it, wherever they came. -/
theorem Makes.blocksFor_eq (hraw : Raw items) (h : Makes items ds) (name : Ident) :
    blocksFor ds name = gathered items name := by
  refine h.induction (P := fun items ds => Raw items → blocksFor ds name = gathered items name)
    (fun _ => rfl) ?_ hraw
  intro items ds d es hmakes ih hd hraw
  obtain ⟨hitems, himpls⟩ := raw_concat_iff.mp hraw
  have hlast : [d].filterMap (waiting? name) = (waiting? name d).toList := by
    cases hw : waiting? name d <;> simp [hw]
  rw [blocksFor_pushDecl (hmakes.tidy hitems) himpls hd, ih hitems, gathered, gathered,
    ← Impl.attachAll_nil, ← Impl.attachAll_nil, List.filterMap_append, hlast]
  exact List.foldl_append.symm

/-- A declaration with the blocks that are held for its type: a type with all of them, a waiting
block with what is held for its trait. -/
def complete (blocks : Ident → List Impl) : Decl → Decl
  | .struct s => .struct { s with impls := blocks s.name }
  | .enum e => .enum { e with impls := blocks e.name }
  | .impl i => .impl ((Impl.findKey? (blocks i.self) i.traitKey).getD i)
  | d => d

theorem complete_impl {blocks : Ident → List Impl} {i b : Impl}
    (h : Impl.findKey? (blocks i.self) i.traitKey = some b) :
    complete blocks (.impl i) = .impl b := by
  rw [complete, h, Option.getD_some]

/-- What pushing declarations in order gives: the first imports and then the first of all other
declarations, without the blocks of declared types, each with all that was pushed for it. -/
def closedForm (items : List Decl) : List Decl := (arrange items).map (complete (gathered items))

theorem findKey?_eq_some {blocks : List Impl} {i : Impl}
    (hnodup : (blocks.map Impl.traitKey).Nodup) (hi : i ∈ blocks) :
    Impl.findKey? blocks i.traitKey = some i := by
  induction blocks with
  | nil => cases hi
  | cons b blocks ih =>
      obtain ⟨hb, hblocks⟩ := List.nodup_cons.mp hnodup
      rcases List.mem_cons.mp hi with rfl | hi
      · exact Impl.findKey?_cons_of_eq rfl blocks
      · have hne : b.traitKey ≠ i.traitKey := fun heq => hb (heq ▸ List.mem_map_of_mem hi)
        rw [Impl.findKey?_cons_of_ne hne, ih hblocks hi]

/-- Tidy declarations are known by their outline and by the blocks that are held for each type. -/
theorem map_complete_outline (h : Tidy ds) : (outline ds).map (complete (blocksFor ds)) = ds := by
  have hown {d : Decl} {n : Ident} (hd : d ∈ ds) (hn : d.typeName? = some n) :
      blocksFor ds n = d.impls := by
    rw [blocksFor, typeDecl?_eq_some h.typesDistinct hd hn]
  have hall : ∀ d ∈ ds, complete (blocksFor ds) d.bare = d := by
    intro d hd
    cases d with
    | struct s => simp only [Decl.bare, complete, hown hd rfl, Decl.impls]
    | enum e => simp only [Decl.bare, complete, hown hd rfl, Decl.impls]
    | impl i =>
        have hwaits : blocksFor ds i.self = ds.filterMap (waiting? i.self) := by
          rw [blocksFor, typeDecl?_eq_none_iff.mpr (h.waitersHomeless i hd)]
        have hmem : i ∈ ds.filterMap (waiting? i.self) :=
          List.mem_filterMap.mpr ⟨_, hd, waiting?_eq_some_iff.mpr ⟨rfl, rfl⟩⟩
        have hfound := findKey?_eq_some (h.nodup_traitKey_waiting i.self) hmem
        rw [← hwaits] at hfound
        exact complete_impl (i := { i with fns := [] }) hfound
    | _ => rfl
  rw [outline, List.map_map]
  exact (List.map_congr_left hall).trans (List.map_id ds)

theorem slot?_bare (d : Decl) : d.bare.slot? = d.slot? := by cases d <;> rfl

theorem outline_firsts : outline (firsts ds) = firsts (outline ds) := by
  induction ds using List.reverseRecOn with
  | nil => rfl
  | append_singleton ds d ih =>
      have hslots : slots (outline (firsts ds)) = slots (firsts ds) := filterMap_outline slot?_bare
      have hlast : outline [d] = [d.bare] := rfl
      rw [outline_append, hlast, firsts_concat, firsts_concat, ← ih, addFirst, addFirst, hslots,
        slot?_bare, apply_ite outline, outline_append, hlast]

theorem outline_filter {p : Decl → Bool} (h : ∀ d, p d.bare = p d) :
    outline (ds.filter p) = (outline ds).filter p := by
  rw [outline, outline, List.filter_map]
  congr 2
  exact funext fun d => (h d).symm

theorem outline_arrange : outline (arrange ds) = arrange (outline ds) := by
  have hstands (names : List Ident) (d : Decl) : stands names d.bare = stands names d := by
    cases d <;> rfl
  rw [arrange, outline_append, outline_firsts, outline_firsts, outline_filter Decl.isUse_bare,
    outline_filter (hstands _), arrange, typeNames_outline]

/-- Every block that was pushed is found among the gathered ones by its trait. -/
theorem exists_findKey?_gathered {i : Impl} (hi : .impl i ∈ items) :
    ∃ b, Impl.findKey? (gathered items i.self) i.traitKey = some b := by
  have hmem : i ∈ items.filterMap (waiting? i.self) :=
    List.mem_filterMap.mpr ⟨_, hi, waiting?_eq_some_iff.mpr ⟨rfl, rfl⟩⟩
  have hkey : i.traitKey ∈ (gathered items i.self).map Impl.traitKey := by
    rw [gathered, ← Impl.attachAll_nil, Impl.mem_traitKeys_iff, Impl.mem_offers_attachAll]
    exact .inr (Impl.mem_traitKeys_iff.mp (List.mem_map_of_mem hmem))
  rw [← Option.isSome_iff_exists, Impl.findKey?, List.find?_isSome]
  simpa using hkey

theorem Makes.eq_closedForm (hraw : Raw items) (h : Makes items ds) : ds = closedForm items := by
  have hbare : ∀ d ∈ arrange items,
      complete (gathered items) d.bare = complete (gathered items) d := by
    intro d hd
    cases d with
    | impl i =>
        have hi : .impl i ∈ items := by
          rcases List.mem_append.mp hd with hd | hd <;>
            exact List.mem_of_mem_filter (firsts_subset hd)
        obtain ⟨b, hb⟩ := exists_findKey?_gathered hi
        have hbare : complete (gathered items) (Decl.bare (.impl i)) = .impl b :=
          complete_impl (i := { i with fns := [] }) hb
        rw [hbare, complete_impl hb]
    | _ => rfl
  calc ds = (outline ds).map (complete (blocksFor ds)) := (map_complete_outline (h.tidy hraw)).symm
    _ = (outline (arrange items)).map (complete (gathered items)) := by
        rw [h.outline_eq, outline_arrange, funext (h.blocksFor_eq hraw)]
    _ = closedForm items := by
        rw [outline, List.map_map]
        exact List.map_congr_left hbare

/-! ### Pushing to an empty module -/

/-- Where the kinds of types contradict each other first: they agree before `d`, whose name was
declared there as a type of another kind. -/
structure FirstClash (items before : List Decl) (d : Decl) (n : Ident) (old : Kind) : Prop where
  split : ∃ rest, items = before ++ d :: rest
  agree : KindsAgree before
  name : d.typeName? = some n
  declared : ∃ e ∈ before, e.typeName? = some n ∧ e.kind = old
  other : old ≠ d.kind

theorem exists_firstClash (h : ¬KindsAgree items) :
    ∃ before d n old, FirstClash items before d n old := by
  induction items using List.reverseRecOn with
  | nil => exact absurd (fun _ _ hs => nomatch hs) h
  | append_singleton items d ih =>
      by_cases hitems : KindsAgree items
      · rw [kindsAgree_concat_iff] at h
        push Not at h
        obtain ⟨n, hn, k, hk, hne⟩ := h hitems
        exact ⟨items, d, n, k, ⟨[], rfl⟩, hitems, hn, mem_kindsOf.mp hk, hne⟩
      · obtain ⟨before, e, n, old, hclash⟩ := ih hitems
        obtain ⟨rest, rfl⟩ := hclash.split
        exact ⟨before, e, n, old, { hclash with split := ⟨rest ++ [d], by simp⟩ }⟩

/-- The declaration that contradicts is refused. -/
theorem FirstClash.pushDecl_eq_error {before : List Decl} {n : Ident} {old : Kind}
    (h : FirstClash items before d n old) (hmakes : Makes before ds) :
    pushDecl ds d = (ds, .error (clash d.kind n old)) := by
  obtain ⟨e, he, hname, rfl⟩ := h.declared
  obtain ⟨e', he'⟩ : ∃ e', typeDecl? ds n = some e' := by
    rw [← Option.isSome_iff_exists, ← Option.ne_none_iff_isSome, Ne,
      typeDecl?_eq_none_iff_kindsOf, hmakes.kindsOf_of_mem he hname]
    exact List.cons_ne_nil _ _
  have hkind : e'.kind = e.kind := by
    have hhead := @kind_typeDecl? ds n
    rw [he', hmakes.kindsOf_of_mem he hname] at hhead
    exact Option.some.inj hhead
  have hrefused (blocks : List Impl) :
      pushType ds n d blocks = (ds, .error (clash d.kind n e.kind)) := by
    rw [pushType, he']
    dsimp only
    rw [hkind, if_neg h.other]
  cases d with
  | struct s => exact Option.some.inj h.name ▸ hrefused s.impls
  | enum x => exact Option.some.inj h.name ▸ hrefused x.impls
  | _ => cases h.name

/-- Pushing declarations as a dump lists them to an empty module fails exactly when some name is
declared both as a struct and as an enum.  It stops at the first declaration that contradicts an
earlier one, with the closed form of the declarations before it; otherwise it gives the closed form
of all. -/
theorem pushAll_closedForm {m : Module} (hm : m.decls = []) (hraw : Raw items) :
    ((∃ f, (m.pushAll items).2 = .error f) ↔
        ∃ s e, .struct s ∈ items ∧ .enum e ∈ items ∧ s.name = e.name) ∧
      (KindsAgree items → m.pushAll items = ({ m with decls := closedForm items }, .ok ())) ∧
      (¬KindsAgree items → ∃ before d n old, FirstClash items before d n old ∧
        m.pushAll items =
          ({ m with decls := closedForm before }, .error (clash d.kind n old))) := by
  have hdone {before : List Decl} (hraw : Raw before) (hagree : KindsAgree before) :
      Makes before (closedForm before) ∧
        m.pushAll before = ({ m with decls := closedForm before }, .ok ()) := by
    obtain ⟨ds, hds⟩ := exists_makes_iff.mpr hagree
    obtain rfl := hds.eq_closedForm hraw
    exact ⟨hds, pushAll_eq_ok_iff.mpr ⟨_, hm ▸ hds, rfl⟩⟩
  have hfails (hnot : ¬KindsAgree items) : ∃ before d n old, FirstClash items before d n old ∧
      m.pushAll items = ({ m with decls := closedForm before }, .error (clash d.kind n old)) := by
    obtain ⟨before, d, n, old, hclash⟩ := exists_firstClash hnot
    obtain ⟨rest, rfl⟩ := hclash.split
    have hbefore : Raw before := fun x hx => hraw x (List.mem_append_left _ hx)
    obtain ⟨hmakes, hpushed⟩ := hdone hbefore hclash.agree
    have hpush : ({ m with decls := closedForm before } : Module).push d =
        ({ m with decls := closedForm before }, .error (clash d.kind n old)) := by
      rw [push, hclash.pushDecl_eq_error hmakes]
    exact ⟨before, d, n, old, hclash, pushAll_of_push_eq_error hpushed hpush rest⟩
  refine ⟨?_, fun hagree => (hdone hraw hagree).2, hfails⟩
  have hiff : (∃ f, (m.pushAll items).2 = .error f) ↔ ¬KindsAgree items := by
    constructor
    · rintro ⟨f, hf⟩ hagree
      rw [(hdone hraw hagree).2] at hf
      cases hf
    · intro hnot
      obtain ⟨before, d, n, old, -, hpushed⟩ := hfails hnot
      exact ⟨_, by rw [hpushed]⟩
  rw [hiff, KindsAgree]
  push Not
  rfl

/-- A type with blocks before and after it, a type that is never declared, and repetitions. -/
def petItems : List Decl :=
  [.impl { self := "Pet", trait := some (.of "Clone") },
    .impl { self := "Pet", attrs := [⟨.of "doc", "", false⟩], fns := [{ name := "find" }] },
    .func { name := "ping" },
    .impl { self := "Size", fns := [{ name := "all" }] },
    .struct { name := "Pet", pub := true },
    .use { path := .of "std" },
    .impl { self := "Pet", fns := [{ name := "find", pub := true }, { name := "sell" }] },
    .impl { self := "Size", fns := [{ name := "min" }] },
    .struct { name := "Pet" },
    .use { path := .of "std" }]

theorem pushAll_closedForm_pet :
    Raw petItems ∧
      ({ name := "pet" } : Module).pushAll petItems =
        ({ name := "pet", decls := closedForm petItems }, .ok ()) ∧
      closedForm petItems =
        [.use { path := .of "std" },
          .func { name := "ping" },
          .impl { self := "Size", fns := [{ name := "all" }, { name := "min" }] },
          .struct
            { name := "Pet"
              pub := true
              impls :=
                [{ self := "Pet", trait := some (.of "Clone") },
                  { self := "Pet"
                    attrs := [⟨.of "doc", "", false⟩]
                    fns := [{ name := "find" }, { name := "sell" }] }] }] ∧
      Raw (petItems ++ [.enum { name := "Pet" }]) ∧
      ∃ f, (({ name := "pet" } : Module).pushAll (petItems ++ [.enum { name := "Pet" }])).2 =
        .error f := by
  have hraw : Raw petItems := by simp [Raw, petItems, Decl.impls]
  have hagree : KindsAgree petItems := by simp [KindsAgree, petItems]
  have hraw' : Raw (petItems ++ [.enum { name := "Pet" }]) := raw_concat_iff.mpr ⟨hraw, rfl⟩
  refine ⟨hraw, (pushAll_closedForm rfl hraw).2.1 hagree, rfl, hraw', ?_⟩
  refine (pushAll_closedForm rfl hraw').1.mpr ⟨{ name := "Pet" }, { name := "Pet" }, ?_, ?_, rfl⟩
  · simp [petItems]
  · simp

end Module
end ClientLoom
