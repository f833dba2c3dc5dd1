import Mathlib.Data.List.Induction
import ClientLoom.Builder

/-! # What rules mean

A builder runs its rules over each field one by one, and keeps book of the slots whose first rule
has acted.  What comes of it can be said without running anything (`fieldMeaning`).  The attributes
that any matching rule discards are gone.  The type is decided by the first matching map rule and
the first matching remap rule alone, and by which of them comes first.

Each rule changes the meaning of the rules before it as it changes the field
(`fieldMeaning_concat_of_idle`, `fieldMeaning_concat_of_free`), so that a run gives the meaning of
its rules (`field_runRules`).

Main statement: builders have the fields that the rules mean; discard rules may stand anywhere, a
rule that is shadowed on every field of a struct may be left out, and a builder is its own builder
(`build_meaning`). -/

namespace ClientLoom
namespace Builder

/-! ### The meaning of rules -/

/-- The type that an action puts in the place of another. -/
def Action.target? : Action → Option Ty
  | .map target => some target
  | _ => none

/-- The type that an action makes a vector of. -/
def Action.elem? : Action → Option Ty
  | .remap elem => some elem
  | _ => none

/-- The attributes that an action removes. -/
def Action.attr? : Action → Option Ident
  | .discard attr => some attr
  | _ => none

/-- A vector in the place of a type: in an option when the type is one. -/
def vecIn (elem : Ty) : Ty → Ty
  | .path p [_] =>
      if p.last = "Option" then .named "Option" [.named "Vec" [elem]] else .named "Vec" [elem]
  | _ => .named "Vec" [elem]

/-- The type that the first map rule and the first remap rule decide on; both come with their
places among the rules. -/
def decided : Option (Nat × Ty) → Option (Nat × Ty) → Ty → Ty
  | none, none, t => t
  | some (_, target), none, _ => target
  | none, some (_, elem), t => vecIn elem t
  | some (i, target), some (j, elem), _ => if j < i then target else vecIn elem target

section meaning

variable (rules : List Rule) (type : Ident)

/-- The first rule that selects a field and whose action gives an answer, with its place. -/
def firstOf (answer : Action → Option Ty) (field : Ident) : Option (Nat × Ty) :=
  rules.zipIdx.findSome? fun (r, i) =>
    if r.selector.selects type field then (answer r.action).map (i, ·) else none

/-- The names of attributes that some rule discards from a field. -/
def discarded (field : Ident) : List Ident :=
  rules.filterMap fun r => if r.selector.selects type field then r.action.attr? else none

/-- What rules mean for a field of the struct called `type`. -/
def fieldMeaning (f : Field) : Field :=
  { f with
    attrs := f.attrs.filter (!(discarded rules type f.name).contains ·.name)
    ty := decided (firstOf rules type Action.target? f.name)
      (firstOf rules type Action.elem? f.name) f.ty }

end meaning

/-- What rules mean for a struct. -/
def meaning (rules : List Rule) (s : Struct) : Struct :=
  { s with fields := s.fields.map (fieldMeaning rules s.name), impls := [] }

variable {rules rules' before after : List Rule} {r : Rule} {type field : Ident} {f g : Field}
  {slot : Slot}

/-! ### One rule more -/

/-- Some rule that selects the field competes for the slot. -/
def Taken (rules : List Rule) (type field : Ident) (slot : Slot) : Prop :=
  ∃ r ∈ rules, r.selector.selects type field = true ∧ r.action.slot = slot

theorem taken_append_iff : Taken (before ++ after) type field slot ↔
    Taken before type field slot ∨ Taken after type field slot := by
  simp only [Taken, List.mem_append, or_and_right, exists_or]

theorem taken_singleton_iff : Taken [r] type field slot ↔
    r.selector.selects type field = true ∧ r.action.slot = slot := by
  simp only [Taken, List.mem_singleton, exists_eq_left]

theorem firstOf_concat (answer : Action → Option Ty) :
    firstOf (rules ++ [r]) type answer field =
      (firstOf rules type answer field).or
        (if r.selector.selects type field then (answer r.action).map (rules.length, ·)
          else none) := by
  simp [firstOf, List.zipIdx_append, List.findSome?_append]

theorem firstOf_lt {answer : Action → Option Ty} {i : Nat} {t : Ty}
    (h : firstOf rules type answer field = some (i, t)) : i < rules.length := by
  induction rules using List.reverseRecOn with
  | nil => cases h
  | append_singleton rules r ih =>
      rw [firstOf_concat, Option.or_eq_some_iff] at h
      rw [List.length_append, List.length_singleton]
      rcases h with h | ⟨-, h⟩
      · exact Nat.lt_succ_of_lt (ih h)
      · split at h
        · obtain ⟨_, -, hpair⟩ := Option.map_eq_some_iff.mp h
          rw [← (Prod.mk.inj hpair).1]
          exact Nat.lt_succ_self _
        · cases h

theorem isSome_firstOf_iff {answer : Action → Option Ty} :
    (firstOf rules type answer field).isSome = true ↔
      ∃ r ∈ rules, r.selector.selects type field = true ∧ (answer r.action).isSome = true := by
  induction rules using List.reverseRecOn with
  | nil => simp [firstOf]
  | append_singleton rules r ih =>
      simp only [firstOf_concat, Option.isSome_or, Bool.or_eq_true, ih, List.mem_append,
        or_and_right, exists_or, List.mem_singleton, exists_eq_left]
      by_cases h : r.selector.selects type field = true <;> simp [h]

theorem slot_eq_map_iff (a : Action) : a.slot = .map ↔ a.target?.isSome = true := by
  cases a <;> simp [Action.slot, Action.target?]

theorem slot_eq_remap_iff (a : Action) : a.slot = .remap ↔ a.elem?.isSome = true := by
  cases a <;> simp [Action.slot, Action.elem?]

section slots

variable {answer : Action → Option Ty}
  (hslot : ∀ a : Action, a.slot = slot ↔ (answer a).isSome = true)

include hslot

/-- The slot of map rules, or that of remap rules, is taken when there is a first such rule. -/
theorem taken_iff_isSome_firstOf :
    Taken rules type field slot ↔ (firstOf rules type answer field).isSome = true := by
  simp only [isSome_firstOf_iff, Taken, hslot]

theorem firstOf_eq_none (h : ¬ Taken rules type field slot) :
    firstOf rules type answer field = none :=
  Option.not_isSome_iff_eq_none.mp fun hsome => h ((taken_iff_isSome_firstOf hslot).mpr hsome)

theorem firstOf_concat_of_idle
    (h : r.selector.selects type field = true → Taken rules type field r.action.slot) :
    firstOf (rules ++ [r]) type answer field = firstOf rules type answer field := by
  rw [firstOf_concat]
  by_cases hsel : r.selector.selects type field = true
  · cases hans : answer r.action with
    | none => rw [Option.map_none, ite_self, Option.or_none]
    | some t =>
        have hr : r.action.slot = slot := (hslot _).mpr (by rw [hans]; rfl)
        have htaken : Taken rules type field slot := hr ▸ h hsel
        exact Option.or_of_isSome ((taken_iff_isSome_firstOf hslot).mp htaken)
  · rw [if_neg hsel, Option.or_none]

end slots

theorem mem_discarded_iff {attr : Ident} :
    attr ∈ discarded rules type field ↔ Taken rules type field (.discard attr) := by
  rw [discarded, List.mem_filterMap]
  refine exists_congr fun r => and_congr_right fun _ => ?_
  cases hr : r.action <;> simp [Action.attr?, Action.slot]

/-- Rules change nothing of a field but its attributes and its type. -/
theorem fieldMeaning_ext
    (hattrs : (fieldMeaning rules' type f).attrs = (fieldMeaning rules type f).attrs)
    (hty : (fieldMeaning rules' type f).ty = (fieldMeaning rules type f).ty) :
    fieldMeaning rules' type f = fieldMeaning rules type f := by
  have hsplit (rules : List Rule) : fieldMeaning rules type f =
      { f with attrs := (fieldMeaning rules type f).attrs, ty := (fieldMeaning rules type f).ty } :=
    rfl
  rw [hsplit rules', hsplit rules, hattrs, hty]

theorem attrs_fieldMeaning_congr
    (h : ∀ attr, Taken rules' type f.name (.discard attr) ↔
      Taken rules type f.name (.discard attr)) :
    (fieldMeaning rules' type f).attrs = (fieldMeaning rules type f).attrs := by
  have hcontains (attr : Ident) : (discarded rules' type f.name).contains attr =
      (discarded rules type f.name).contains attr := by
    rw [Bool.eq_iff_iff, List.contains_iff_mem, List.contains_iff_mem, mem_discarded_iff,
      mem_discarded_iff, h]
  simp only [fieldMeaning, hcontains]

theorem fieldMeaning_nil : fieldMeaning [] type f = f := by
  have hattrs : f.attrs.filter (!(discarded [] type f.name).contains ·.name) = f.attrs :=
    List.filter_eq_self.mpr fun _ _ => rfl
  rw [fieldMeaning, hattrs]
  rfl

/-- A rule that does not select the field, or whose slot is taken, means nothing. -/
theorem fieldMeaning_concat_of_idle
    (h : r.selector.selects type f.name = true → Taken rules type f.name r.action.slot) :
    fieldMeaning (rules ++ [r]) type f = fieldMeaning rules type f := by
  have hslots (slot : Slot) :
      Taken (rules ++ [r]) type f.name slot ↔ Taken rules type f.name slot := by
    rw [taken_append_iff, taken_singleton_iff, or_iff_left_of_imp]
    rintro ⟨hsel, rfl⟩
    exact h hsel
  refine fieldMeaning_ext (attrs_fieldMeaning_congr fun attr => hslots _) ?_
  simp only [fieldMeaning, firstOf_concat_of_idle slot_eq_map_iff h,
    firstOf_concat_of_idle slot_eq_remap_iff h]

theorem apply_remap (elem : Ty) (f : Field) :
    (Action.remap elem).apply f = { f with ty := vecIn elem f.ty } := by
  have hty : (if (f.ty.soleArg? "Option").isSome then
        Ty.named "Option" [.named "Vec" [elem]]
      else .named "Vec" [elem]) = vecIn elem f.ty := by
    cases f.ty with
    | path p args =>
        match args with
        | [] => rfl
        | [arg] => by_cases hp : p.last = "Option" <;> simp [Ty.soleArg?, vecIn, hp]
        | _ :: _ :: _ => rfl
    | _ => rfl
  rw [← hty]
  rfl

/-- A first map rule decides, whatever stands before it. -/
theorem decided_map {e : Option (Nat × Ty)} {n : Nat} {target t : Ty}
    (he : ∀ j elem, e = some (j, elem) → j < n) : decided (some (n, target)) e t = target := by
  cases e with
  | none => rfl
  | some e => exact if_pos (he e.1 e.2 rfl)

/-- A first remap rule acts on what was decided before it. -/
theorem decided_remap {m : Option (Nat × Ty)} {n : Nat} {elem t : Ty}
    (hm : ∀ i target, m = some (i, target) → i < n) :
    decided m (some (n, elem)) t = vecIn elem (decided m none t) := by
  cases m with
  | none => rfl
  | some m => exact if_neg (Nat.lt_asymm (hm m.1 m.2 rfl))

/-- The first rule of its slot changes the meaning as it changes a field. -/
theorem fieldMeaning_concat_of_free (hsel : r.selector.selects type f.name = true)
    (hfree : ¬ Taken rules type f.name r.action.slot) :
    fieldMeaning (rules ++ [r]) type f = r.action.apply (fieldMeaning rules type f) := by
  have hfirst (answer : Action → Option Ty) : firstOf (rules ++ [r]) type answer f.name =
      (firstOf rules type answer f.name).or ((answer r.action).map (rules.length, ·)) := by
    rw [firstOf_concat, if_pos hsel]
  have hdiscarded : discarded (rules ++ [r]) type f.name =
      discarded rules type f.name ++ r.action.attr?.toList := by
    rw [discarded, List.filterMap_append, ← discarded]
    cases h : r.action.attr? <;> simp [hsel, h]
  rw [fieldMeaning, hfirst, hfirst, hdiscarded]
  cases hr : r.action with
  | discard attr =>
      have hattrs : f.attrs.filter (!(discarded rules type f.name ++ [attr]).contains ·.name) =
          (f.attrs.filter (!(discarded rules type f.name).contains ·.name)).filter
            (·.name != attr) := by
        rw [List.filter_filter]
        refine List.filter_congr fun a _ => ?_
        rw [Bool.eq_iff_iff]
        simp [and_comm]
      simp only [Action.attr?, Action.target?, Action.elem?, Option.toList_some, Option.map_none,
        Option.or_none, hattrs]
      rfl
  | map target =>
      have hnone := firstOf_eq_none slot_eq_map_iff (hr ▸ hfree)
      simp only [Action.attr?, Action.target?, Action.elem?, Option.toList_none, List.append_nil,
        Option.map_none, Option.map_some, Option.or_none, hnone, Option.none_or,
        decided_map fun j elem h => firstOf_lt h]
      rfl
  | remap elem =>
      have hnone := firstOf_eq_none slot_eq_remap_iff (hr ▸ hfree)
      simp only [Action.attr?, Action.target?, Action.elem?, Option.toList_none, List.append_nil,
        Option.map_none, Option.map_some, Option.or_none, hnone, Option.none_or,
        decided_remap fun i target h => firstOf_lt h, apply_remap]
      rw [fieldMeaning, hnone]

/-! ### Runs -/

theorem runRules_concat :
    runRules (rules ++ [r]) type f = (runRules rules type f).step type r := by
  rw [runRules, List.foldl_append]
  rfl

theorem name_apply (a : Action) (f : Field) : (a.apply f).name = f.name := by
  cases a <;> rfl

theorem name_runRules : (runRules rules type f).field.name = f.name := by
  induction rules using List.reverseRecOn with
  | nil => rfl
  | append_singleton rules r ih =>
      rw [runRules_concat, Pass.step]
      split
      · split
        · exact ih
        · exact (name_apply _ _).trans ih
      · exact ih

/-- The slots in the book are those of the rules that select the field. -/
theorem mem_taken_runRules :
    slot ∈ (runRules rules type f).taken ↔ Taken rules type f.name slot := by
  induction rules using List.reverseRecOn with
  | nil => simp [runRules, Taken]
  | append_singleton rules r ih =>
      rw [runRules_concat, Pass.step, name_runRules, taken_append_iff, taken_singleton_iff, ← ih]
      by_cases hsel : r.selector.selects type f.name = true
      · rw [if_pos hsel]
        split
        · next htaken =>
            have hmem := List.contains_iff_mem.mp htaken
            exact (or_iff_left_of_imp fun ⟨_, h⟩ => h ▸ hmem).symm
        · simp [hsel, or_comm, eq_comm]
      · simp [hsel]

/-- A run over a field gives what its rules mean. -/
theorem field_runRules : (runRules rules type f).field = fieldMeaning rules type f := by
  induction rules using List.reverseRecOn with
  | nil => exact fieldMeaning_nil.symm
  | append_singleton rules r ih =>
      rw [runRules_concat, Pass.step, name_runRules]
      by_cases hsel : r.selector.selects type f.name = true
      · rw [if_pos hsel]
        by_cases htaken : Taken rules type f.name r.action.slot
        · rw [if_pos (List.contains_iff_mem.mpr (mem_taken_runRules.mpr htaken)),
            fieldMeaning_concat_of_idle fun _ => htaken]
          exact ih
        · rw [if_neg fun h => htaken (mem_taken_runRules.mp (List.contains_iff_mem.mp h)),
            fieldMeaning_concat_of_free hsel htaken, ← ih]
      · rw [if_neg hsel, fieldMeaning_concat_of_idle fun h => absurd h hsel]
        exact ih

theorem buildStruct_eq (rules : List Rule) (s : Struct) :
    buildStruct rules s = meaning rules s := by
  simp only [buildStruct, meaning, field_runRules]

/-! ### Rules that may move or go -/

/-- Whether a rule discards attributes. -/
def Rule.isDiscard (r : Rule) : Bool := r.action.attr?.isSome

/-- Two lists have the same discard rules, wherever they stand, and otherwise the same rules in the
same order. -/
structure Reordered (rules rules' : List Rule) : Prop where
  discards : ∀ r, r.isDiscard = true → (r ∈ rules' ↔ r ∈ rules)
  others : rules'.filter (!·.isDiscard) = rules.filter (!·.isDiscard)

/-- On every field of a struct that a rule selects, a rule before it has acted for its slot. -/
def Shadowed (before : List Rule) (s : Struct) (r : Rule) : Prop :=
  ∀ f ∈ s.fields, r.selector.selects s.name f.name = true →
    Taken before s.name f.name r.action.slot

theorem slot_ne_of_isDiscard {q : Rule} (hq : q.isDiscard = true) (hr : r.isDiscard = false) :
    q.action.slot ≠ r.action.slot := by
  unfold Rule.isDiscard at hq hr
  cases hqa : q.action <;> cases hra : r.action <;>
    simp_all [Action.attr?, Action.slot]

/-- The slot of another rule is taken by the same rules when the discard rules are left out. -/
theorem taken_filter_iff (hr : r.isDiscard = false) :
    Taken (rules.filter (!·.isDiscard)) type field r.action.slot ↔
      Taken rules type field r.action.slot := by
  refine exists_congr fun q => ?_
  rw [List.mem_filter]
  constructor
  · rintro ⟨⟨hq, -⟩, hsel⟩
    exact ⟨hq, hsel⟩
  · rintro ⟨hq, hsel, hslot⟩
    refine ⟨⟨hq, ?_⟩, hsel, hslot⟩
    rw [Bool.not_eq_true', Bool.eq_false_iff]
    exact fun hdiscard => slot_ne_of_isDiscard hdiscard hr hslot

theorem ty_apply_discard (h : r.isDiscard = true) (f : Field) : (r.action.apply f).ty = f.ty := by
  unfold Rule.isDiscard at h
  cases hr : r.action with
  | discard attr => rfl
  | _ => rw [hr] at h; cases h

theorem ty_apply_congr (a : Action) (h : f.ty = g.ty) : (a.apply f).ty = (a.apply g).ty := by
  cases a with
  | discard attr => exact h
  | remap elem => rw [apply_remap, apply_remap, h]
  | map target => rfl

/-- Discard rules have no say in the type. -/
theorem ty_fieldMeaning_filter :
    (fieldMeaning (rules.filter (!·.isDiscard)) type f).ty = (fieldMeaning rules type f).ty := by
  induction rules using List.reverseRecOn with
  | nil => rfl
  | append_singleton rules r ih =>
      rw [List.filter_append]
      by_cases hidle : r.selector.selects type f.name = true →
          Taken rules type f.name r.action.slot
      · rw [fieldMeaning_concat_of_idle hidle, ← ih]
        cases hr : r.isDiscard with
        | true => rw [List.filter_cons_of_neg (by simp [hr]), List.filter_nil, List.append_nil]
        | false =>
            rw [List.filter_cons_of_pos (by simp [hr]), List.filter_nil,
              fieldMeaning_concat_of_idle fun hsel => (taken_filter_iff hr).mpr (hidle hsel)]
      · push Not at hidle
        obtain ⟨hsel, hfree⟩ := hidle
        rw [fieldMeaning_concat_of_free hsel hfree]
        cases hr : r.isDiscard with
        | true =>
            rw [List.filter_cons_of_neg (by simp [hr]), List.filter_nil, List.append_nil, ih,
              ty_apply_discard hr]
        | false =>
            rw [List.filter_cons_of_pos (by simp [hr]), List.filter_nil,
              fieldMeaning_concat_of_free hsel fun h => hfree ((taken_filter_iff hr).mp h)]
            exact ty_apply_congr _ ih

theorem taken_discard_of_reordered (h : Reordered rules rules') {attr : Ident} :
    Taken rules' type field (.discard attr) ↔ Taken rules type field (.discard attr) := by
  have hdiscard {q : Rule} (hq : q.action.slot = .discard attr) : q.isDiscard = true := by
    unfold Rule.isDiscard
    cases hqa : q.action with
    | discard _ => rfl
    | _ => rw [hqa] at hq; cases hq
  refine exists_congr fun q => ?_
  constructor
  · rintro ⟨hq, hsel, hslot⟩
    exact ⟨(h.discards q (hdiscard hslot)).mp hq, hsel, hslot⟩
  · rintro ⟨hq, hsel, hslot⟩
    exact ⟨(h.discards q (hdiscard hslot)).mpr hq, hsel, hslot⟩

theorem fieldMeaning_of_reordered (h : Reordered rules rules') :
    fieldMeaning rules' type f = fieldMeaning rules type f := by
  refine fieldMeaning_ext
    (attrs_fieldMeaning_congr fun attr => taken_discard_of_reordered h) ?_
  rw [← ty_fieldMeaning_filter, h.others, ty_fieldMeaning_filter]

/-- A rule means nothing behind a rule for its slot that selects the field. -/
theorem fieldMeaning_of_shadowed (h : r.selector.selects type f.name = true →
    Taken before type f.name r.action.slot) :
    fieldMeaning (before ++ r :: after) type f = fieldMeaning (before ++ after) type f := by
  have hslots (after : List Rule) (slot : Slot) : Taken (before ++ r :: after) type f.name slot ↔
      Taken (before ++ after) type f.name slot := by
    rw [← List.singleton_append, taken_append_iff, taken_append_iff, taken_append_iff,
      taken_singleton_iff, ← or_assoc, or_iff_left_of_imp (a := Taken before type f.name slot)]
    rintro ⟨hsel, rfl⟩
    exact h hsel
  induction after using List.reverseRecOn with
  | nil => rw [List.append_nil, fieldMeaning_concat_of_idle h]
  | append_singleton after x ih =>
      rw [← List.cons_append, ← List.append_assoc, ← List.append_assoc]
      by_cases hidle : x.selector.selects type f.name = true →
          Taken (before ++ after) type f.name x.action.slot
      · rw [fieldMeaning_concat_of_idle hidle,
          fieldMeaning_concat_of_idle fun hsel => (hslots _ _).mpr (hidle hsel), ih]
      · push Not at hidle
        obtain ⟨hsel, hfree⟩ := hidle
        rw [fieldMeaning_concat_of_free hsel hfree,
          fieldMeaning_concat_of_free hsel fun h => hfree ((hslots _ _).mp h), ih]

/-! ### Builders of builders -/

theorem vecIn_vecIn (elem t : Ty) : vecIn elem (vecIn elem t) = vecIn elem t := by
  have hvec : vecIn elem (.named "Vec" [elem]) = .named "Vec" [elem] := by
    have hname : (Path.of "Vec").last ≠ "Option" := by decide
    simp only [Ty.named, vecIn, if_neg hname]
  have hoption (arg : Ty) :
      vecIn elem (.named "Option" [arg]) = .named "Option" [.named "Vec" [elem]] := by
    have hname : (Path.of "Option").last = "Option" := by decide
    simp only [Ty.named, vecIn, if_pos hname]
  cases t with
  | path p args =>
      match args with
      | [] => exact hvec
      | [arg] =>
          by_cases hp : p.last = "Option"
          · simp only [vecIn, if_pos hp]
            exact hoption (.named "Vec" [elem])
          · simp only [vecIn, if_neg hp]
            exact hvec
      | _ :: _ :: _ => exact hvec
  | _ => exact hvec

theorem decided_decided (m e : Option (Nat × Ty)) (t : Ty) :
    decided m e (decided m e t) = decided m e t := by
  match m, e with
  | none, none => rfl
  | none, some (_, elem) => exact vecIn_vecIn elem t
  | some _, none => rfl
  | some _, some _ => rfl

theorem fieldMeaning_fieldMeaning :
    fieldMeaning rules type (fieldMeaning rules type f) = fieldMeaning rules type f := by
  simp only [fieldMeaning, List.filter_filter, Bool.and_self, decided_decided]

theorem meaning_meaning (rules : List Rule) (s : Struct) :
    meaning rules (meaning rules s) = meaning rules s := by
  simp only [meaning, List.map_map, Function.comp_def, fieldMeaning_fieldMeaning]

/-- The builder of a struct is what the rules mean for it.  So discard rules may change places, a
rule that is shadowed on all fields may be added, and the builder of a builder is the same
builder. -/
theorem build_meaning :
    (∀ rules s, build rules (.struct s) = .ok (meaning rules s)) ∧
      (∀ rules rules' s, Reordered rules rules' →
        build rules' (.struct s) = build rules (.struct s)) ∧
      (∀ before after r s, Shadowed before s r →
        build (before ++ r :: after) (.struct s) = build (before ++ after) (.struct s)) ∧
      ∀ rules s s', build rules (.struct s) = .ok s' → build rules (.struct s') = .ok s' := by
  have hbuild (rules : List Rule) (s : Struct) :
      build rules (.struct s) = .ok (meaning rules s) := by
    rw [build, buildStruct_eq]
  refine ⟨hbuild, fun rules rules' s h => ?_, fun before after r s h => ?_,
    fun rules s s' h => ?_⟩
  · have hfield : fieldMeaning rules' s.name = fieldMeaning rules s.name :=
      funext fun f => fieldMeaning_of_reordered h
    rw [hbuild, hbuild, meaning, hfield, ← meaning]
  · have hfields : s.fields.map (fieldMeaning (before ++ r :: after) s.name) =
        s.fields.map (fieldMeaning (before ++ after) s.name) :=
      List.map_congr_left fun f hf => fieldMeaning_of_shadowed (h f hf)
    rw [hbuild, hbuild, meaning, hfields, ← meaning]
  · rw [hbuild] at h
    rw [← Except.ok.inj h, hbuild, meaning_meaning]

/-- A struct with one field, an option with an attribute. -/
def taggedPet : Struct where
  name := "Pet"
  fields :=
    [{ name := "tags", ty := .named "Option" [.named "Tags"], attrs := [⟨.of "serde", "", false⟩] }]

def dropSerde : Rule := ⟨⟨"", ""⟩, .discard "serde"⟩

def mapTags : Rule := ⟨⟨"", "tags"⟩, .map (.named "Tags")⟩

def mapAll : Rule := ⟨⟨"", ""⟩, .map (.named "Never")⟩

def remapPet : Rule := ⟨⟨"Pet", ""⟩, .remap (.named "Tag")⟩

theorem build_meaning_pet :
    (Reordered [dropSerde, mapTags] [mapTags, dropSerde] ∧
        build [mapTags, dropSerde] (.struct taggedPet) =
          build [dropSerde, mapTags] (.struct taggedPet)) ∧
      (Shadowed [mapTags] taggedPet mapAll ∧
        build [mapTags, mapAll, remapPet] (.struct taggedPet) =
          build [mapTags, remapPet] (.struct taggedPet)) ∧
      ∃ s', build [dropSerde, remapPet] (.struct taggedPet) = .ok s' ∧
        s'.fields.map (·.ty.text) = ["Option<Vec<Tag>>"] ∧
        build [dropSerde, remapPet] (.struct s') = .ok s' := by
  have hreordered : Reordered [dropSerde, mapTags] [mapTags, dropSerde] :=
    ⟨fun r _ => by simp [or_comm], rfl⟩
  have hshadowed : Shadowed [mapTags] taggedPet mapAll := by
    intro f hf _
    rw [List.mem_singleton.mp hf]
    exact ⟨mapTags, List.mem_singleton_self _, by decide, rfl⟩
  obtain ⟨hbuild, hreorder, hshadow, hagain⟩ := build_meaning
  have hout := hbuild [dropSerde, remapPet] taggedPet
  exact ⟨⟨hreordered, hreorder _ _ _ hreordered⟩,
    ⟨hshadowed, hshadow [mapTags] [remapPet] _ _ hshadowed⟩,
    _, hout, by decide +kernel, hagain _ _ _ hout⟩

end Builder
end ClientLoom
