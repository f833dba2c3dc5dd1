import Mathlib.Algebra.BigOperators.Group.List.Basic
import Mathlib.Data.List.Induction
import ClientLoom.Proofs.Registry.VisitOrder

/-! # Calls on a registry

A registry is used through three calls: a part is recorded, a merged module is stored, and
everything that waits is merged (`Call`).  A call may fail.  Recording and storing then leave the
registry as it is; merging stops at the first group that fails and keeps the groups before it.

What merging everything leaves is, entry by entry, the entry as it was or the entry with its parts
merged (`forall₂_mergeAll`), whether merging succeeds or not: the groups that were merged before
the failure are those of a prefix (`exists_prefix_mergeGroups`).  So every call keeps a registry
orderly (`Orderly.run`) and the groups of its names (`tag?_run`), and an orderly registry is
consistent (`Orderly.consistent`).

Main statement: whatever calls were made on a new registry, names keep their groups, exactly the
calls that claim a name of another group are refused, the registry is consistent, and merging is
atomic for every name, in whatever order names are visited (`safe_after`). -/

namespace ClientLoom
namespace Registry

/-! ### What a registry holds under a name -/

/-- The parts of a name that wait. -/
def pending (r : Registry) (n : Ident) : List Module := (r.lookup n).elim [] Entry.parts

/-- Another group than `g` has the name. -/
def TakenByOther (r : Registry) (g : String) (n : Ident) : Prop := ∃ g', r.tag? n = some g' ∧ g' ≠ g

/-! ### Calls -/

/-- A call on a registry. -/
inductive Call where
  | add (group : String) (m : Module)
  | put (group : String) (m : Module)
  | mergeAll

namespace Call

/-- The registry after a call, and how the call ended. -/
def run (r : Registry) : Call → Registry × Except Failure Unit
  | .add g m => r.add g m
  | .put g m => r.put g m
  | .mergeAll => r.mergeAll

/-- The group and the name that a call claims for it. -/
def claim? : Call → Option (String × Ident)
  | .add g m => some (g, m.name)
  | .put g m => some (g, m.name)
  | .mergeAll => none

/-- The call fails because of the group of a name. -/
def Refused (c : Call) (r : Registry) : Prop :=
  ∃ f, (c.run r).2 = .error f ∧ f.cause = .groupCollision

end Call

/-- The registry after calls, some of which may have failed. -/
def after (r : Registry) (calls : List Call) : Registry :=
  calls.foldl (fun r c => (c.run r).1) r

variable {r r' : Registry} {e e' : Entry} {es es' : List Entry} {g : String} {gs : List String}
  {n : Ident} {m : Module} {c : Call} {calls : List Call}

theorem after_append (r : Registry) (calls more : List Call) :
    r.after (calls ++ more) = (r.after calls).after more :=
  List.foldl_append

theorem after_concat (r : Registry) (calls : List Call) (c : Call) :
    r.after (calls ++ [c]) = (c.run (r.after calls)).1 :=
  after_append r calls [c]

/-! ### Finding entries -/

theorem entryOf?_of_mem (hes : Increasing es) (he : e ∈ es) : entryOf? es e.name = some e := by
  induction es with
  | nil => cases he
  | cons x xs ih =>
      obtain ⟨hx, hxs⟩ := List.pairwise_cons.mp hes
      rw [entryOf?_cons]
      rcases List.mem_cons.mp he with rfl | he
      · rw [if_pos rfl]
      · rw [if_neg (Text.ne_of_rank_lt (hx e he)), ih hxs he]

/-- Entries that are related one by one and keep their names are related where they are found. -/
theorem rel_entryOf? {R : Entry → Entry → Prop} (hname : ∀ e e', R e e' → e.name = e'.name)
    (h : List.Forall₂ R es es') (n : Ident) :
    Option.Rel R (entryOf? es n) (entryOf? es' n) := by
  induction h with
  | nil => exact .none
  | @cons e e' _ _ hR _ ih =>
      rw [entryOf?_cons, entryOf?_cons, ← hname e e' hR]
      split
      · exact .some hR
      · exact ih

/-! ### Claiming a name -/

theorem rival?_eq_some_iff {g' : String} :
    r.rival? g n = some g' ↔ r.tag? n = some g' ∧ g' ≠ g := by
  simp [rival?, Option.filter_eq_some_iff]

theorem takenByOther_iff : r.TakenByOther g n ↔ ∃ g', r.rival? g n = some g' := by
  simp only [TakenByOther, rival?_eq_some_iff]

/-- A claim is refused when another group has the name, and then changes nothing; otherwise it
succeeds. -/
theorem claim_outcome (r : Registry) (g : String) (n : Ident) {refusal : String → Failure}
    (f : Entry → Entry) (hcause : ∀ other, (refusal other).cause = .groupCollision) :
    (r.TakenByOther g n →
        ∃ e, r.claim g n refusal f = (r, .error e) ∧ e.cause = .groupCollision) ∧
      (¬ r.TakenByOther g n → (r.claim g n refusal f).2 = .ok ()) := by
  rw [takenByOther_iff]
  obtain ⟨hnone, hclaim⟩ | ⟨other, hsome, hclaim⟩ := claim_cases r g n refusal f
  · rw [hclaim, hnone]
    exact ⟨fun ⟨_, h⟩ => (nomatch h), fun _ => rfl⟩
  · rw [hclaim]
    exact ⟨fun _ => ⟨_, rfl, hcause other⟩, fun h => absurd ⟨other, hsome⟩ h⟩

/-- A call that claims a name is refused when another group has the name, and then changes
nothing; otherwise it succeeds. -/
theorem Call.run_of_claim? (h : c.claim? = some (g, n)) :
    (r.TakenByOther g n → ∃ f, c.run r = (r, .error f) ∧ f.cause = .groupCollision) ∧
      (¬ r.TakenByOther g n → (c.run r).2 = .ok ()) := by
  cases c with
  | add g' m =>
      obtain ⟨rfl, rfl⟩ := Prod.mk.inj (Option.some.inj h)
      unfold run Registry.add
      exact claim_outcome r _ _ _ fun _ => rfl
  | put g' m =>
      obtain ⟨rfl, rfl⟩ := Prod.mk.inj (Option.some.inj h)
      unfold run Registry.put
      exact claim_outcome r _ _ _ fun _ => rfl
  | mergeAll => cases h

/-- A name keeps its group when a name is claimed. -/
theorem tag?_claim (hr : Increasing r.entries) {group : String} {name : Ident}
    (refusal : String → Failure) {f : Entry → Entry} (hname : ∀ e, (f e).name = e.name)
    (hgroup : ∀ e, (f e).group = e.group) (h : r.tag? n = some g) :
    (r.claim group name refusal f).1.tag? n = some g := by
  obtain ⟨hnone, hclaim⟩ | ⟨other, -, hclaim⟩ := claim_cases r group name refusal f
  · have hlookup := lookup_claim hr hname hclaim n
    rw [hclaim, tag?, hlookup]
    split
    · next heq =>
        rw [Option.bind_some, hgroup]
        exact congrArg some (rival?_eq_none_iff.mp hnone g (heq ▸ h)).symm
    · exact h
  · rwa [hclaim]

/-! ### Storing a merged module -/

/-- Storing a merged module keeps a registry orderly, whether it is refused or not. -/
theorem Orderly.put (hr : r.Orderly) (g : String) (m : Module) : (r.put g m).1.Orderly := by
  refine hr.claim _ (fun _ => rfl) (fun _ => rfl) fun e he hname p hp => ?_
  simp only [Option.toList_some, List.singleton_append, List.mem_cons] at hp
  rcases hp with rfl | hp
  · exact hname.symm
  · exact he p (List.mem_append_right _ hp)

/-! ### Merging everything -/

/-- An entry is left as it is, or its waiting parts are merged. -/
def Entry.Settles (e e' : Entry) : Prop := e' = e ∨ e.mergeParts = .ok e'

theorem Entry.Settles.name_eq (h : e.Settles e') : e.name = e'.name := by
  rcases h with rfl | h
  · rfl
  · exact (name_of_mergeParts h).symm

theorem Entry.Settles.group_eq (h : e.Settles e') : e.group = e'.group := by
  rcases h with rfl | h
  · rfl
  · exact (group_of_mergeParts h).symm

theorem Entry.Settles.filed (h : e.Settles e') (he : e.Filed) : e'.Filed := by
  rcases h with rfl | h
  · exact he
  · exact he.mergeParts h

/-- The groups that are merged when merging stops are the first of all. -/
theorem exists_prefix_mergeGroups (gs : List String) (r : Registry) :
    ∃ done, done <+: gs ∧ done.foldlM mergeGroup r = .ok (r.mergeGroups gs).1 := by
  induction gs generalizing r with
  | nil => exact ⟨[], List.prefix_rfl, rfl⟩
  | cons g gs ih =>
      unfold mergeGroups
      cases h : r.mergeGroup g with
      | error f => exact ⟨[], List.nil_prefix, rfl⟩
      | ok r₁ =>
          obtain ⟨done, hdone, hr⟩ := ih r₁
          refine ⟨g :: done, List.cons_prefix_cons.mpr ⟨rfl, hdone⟩, ?_⟩
          rw [List.foldlM_cons, h]
          exact hr

/-- Merging leaves or settles every entry, whether it succeeds or not. -/
theorem forall₂_mergeAll (r : Registry) :
    List.Forall₂ Entry.Settles r.entries r.mergeAll.1.entries := by
  obtain ⟨done, -, h⟩ := exists_prefix_mergeGroups r.waitingGroups r
  rw [foldlM_mergeGroup_eq_ok_iff, mapM_eq_ok_iff] at h
  refine h.imp fun e e' he => ?_
  unfold Entry.mergeAmong at he
  split at he
  · exact .inr he
  · exact .inl (Except.ok.inj he).symm

theorem lookup_mergeAll (r : Registry) (n : Ident) :
    r.lookup n = none ∧ r.mergeAll.1.lookup n = none ∨
      ∃ e e', r.lookup n = some e ∧ r.mergeAll.1.lookup n = some e' ∧ e.Settles e' := by
  have hrel := rel_entryOf? (fun _ _ h => h.name_eq) (forall₂_mergeAll r) n
  rw [lookup_eq, lookup_eq]
  generalize entryOf? r.entries n = a at hrel ⊢
  generalize entryOf? r.mergeAll.1.entries n = b at hrel ⊢
  cases hrel with
  | none => exact .inl ⟨rfl, rfl⟩
  | some hsettles => exact .inr ⟨_, _, rfl, rfl, hsettles⟩

/-- After a merge that succeeds nothing waits. -/
theorem Orderly.parts_of_mergeAll (hr : r.Orderly) (h : r.mergeAll.2 = .ok ())
    (he : e ∈ r.mergeAll.1.entries) : e.parts = [] := by
  have hall := hr.mergeAll_eq_ok_iff.mp (Prod.ext rfl h)
  obtain ⟨x, -, hx⟩ := exists_of_mem_mapM hall he
  exact Entry.parts_of_mergeParts hx

theorem Orderly.mergeAll (hr : r.Orderly) : r.mergeAll.1.Orderly := by
  have h := forall₂_mergeAll r
  refine ⟨hr.increasing.of_forall₂ (h.imp fun _ _ he => he.name_eq), fun e' he' => ?_,
    fun e' he' => ?_⟩
  · obtain ⟨e, he, hsettles⟩ := exists_left_of_forall₂ h he'
    exact hsettles.filed (hr.filed e he)
  · obtain ⟨e, he, hsettles⟩ := exists_left_of_forall₂ h he'
    exact hsettles.group_eq ▸ hr.grouped e he

/-! ### Every call -/

/-- Every call keeps a registry orderly. -/
theorem Orderly.run (hr : r.Orderly) (c : Call) : (c.run r).1.Orderly := by
  cases c with
  | add g m => exact hr.add g m
  | put g m => exact hr.put g m
  | mergeAll => exact hr.mergeAll

theorem Orderly.after (hr : r.Orderly) (calls : List Call) : (r.after calls).Orderly := by
  induction calls using List.reverseRecOn with
  | nil => exact hr
  | append_singleton calls c ih =>
      rw [after_concat]
      exact ih.run c

/-- Every call keeps the groups of names. -/
theorem tag?_run (hr : r.Orderly) (h : r.tag? n = some g) (c : Call) :
    (c.run r).1.tag? n = some g := by
  cases c with
  | add g' m => exact tag?_claim hr.increasing _ (fun _ => rfl) (fun _ => rfl) h
  | put g' m => exact tag?_claim hr.increasing _ (fun _ => rfl) (fun _ => rfl) h
  | mergeAll =>
      show (r.mergeAll.1.lookup n).bind Entry.group = some g
      unfold tag? at h
      obtain ⟨he, -⟩ | ⟨e, e', he, he', hsettles⟩ := lookup_mergeAll r n
      · rw [he] at h
        cases h
      · rw [he] at h
        rw [he', Option.bind_some, ← hsettles.group_eq]
        exact h

theorem tag?_after (hr : r.Orderly) (h : r.tag? n = some g) (calls : List Call) :
    (r.after calls).tag? n = some g := by
  induction calls using List.reverseRecOn with
  | nil => exact h
  | append_singleton calls c ih =>
      rw [after_concat]
      exact tag?_run (hr.after calls) ih c

/-! ### Consistency -/

/-- Everything that a registry holds stands under its own name and in one group. -/
structure Consistent (r : Registry) : Prop where
  merged_filed : ∀ n m, r.module? n = some m → m.name = n ∧ (r.tag? n).isSome
  pending_filed : ∀ n, ∀ p ∈ r.pending n, p.name = n ∧ (r.tag? n).isSome
  group_increasing : ∀ g, (r.group g).modules.Pairwise
    fun a b => Text.rank a.name < Text.rank b.name
  mem_group : ∀ g m, m ∈ (r.group g).modules ↔
    r.module? m.name = some m ∧ r.tag? m.name = some g
  groups_disjoint : ∀ g g', g ≠ g' →
    ((r.group g).modules.map Module.name).Disjoint ((r.group g').modules.map Module.name)
  /-- the groups that names have hold all modules together -/
  groups_cover : ∀ gs : List String, gs.Nodup → (∀ n g, r.tag? n = some g → g ∈ gs) →
    (gs.flatMap fun g => (r.group g).modules).length = r.size

/-- Every name that a registry holds has a group. -/
theorem Orderly.isSome_tag? (hr : r.Orderly) (h : r.lookup n = some e) : (r.tag? n).isSome := by
  rw [tag?, h]
  exact hr.grouped e (mem_of_entryOf? h)

theorem Orderly.mem_group_iff (hr : r.Orderly) :
    m ∈ (r.group g).modules ↔ r.module? m.name = some m ∧ r.tag? m.name = some g := by
  unfold group module? tag?
  rw [List.mem_filterMap]
  constructor
  · rintro ⟨e, he, hm⟩
    obtain ⟨hmem, hg⟩ := List.mem_filter.mp he
    have hname : m.name = e.name := hr.filed e hmem m (by simp [hm])
    have hlookup : r.lookup m.name = some e := by
      rw [hname]
      exact entryOf?_of_mem hr.increasing hmem
    rw [hlookup]
    exact ⟨hm, beq_iff_eq.mp hg⟩
  · rintro ⟨hm, hg⟩
    obtain ⟨e, he, hm⟩ := Option.bind_eq_some_iff.mp hm
    rw [he] at hg
    exact ⟨e, List.mem_filter.mpr ⟨mem_of_entryOf? he, beq_iff_eq.mpr hg⟩, hm⟩

theorem Orderly.group_increasing (hr : r.Orderly) (g : String) :
    (r.group g).modules.Pairwise fun a b => Text.rank a.name < Text.rank b.name := by
  unfold group
  rw [List.pairwise_filterMap]
  have hsub := hr.increasing.sublist (List.filter_sublist (p := fun e => e.group == some g))
  refine hsub.imp_of_mem fun {e e'} he he' hlt m hm m' hm' => ?_
  have hname {x : Entry} {y : Module} (hx : x ∈ r.entries.filter (·.group == some g))
      (hy : x.merged = some y) : y.name = x.name :=
    hr.filed x (List.mem_of_mem_filter hx) y (by simp [hy])
  rwa [hname he hm, hname he' hm']

/-- Entries whose groups are among the given ones are counted group by group. -/
theorem length_flatMap_groups (hgs : gs.Nodup) (hes : ∀ e ∈ es, ∃ g ∈ gs, e.group = some g) :
    (gs.flatMap fun g => (es.filter (·.group == some g)).filterMap Entry.merged).length =
      es.countP (·.merged.isSome) := by
  rw [List.length_flatMap]
  induction es with
  | nil => simp
  | cons e es ih =>
      obtain ⟨⟨g₀, hg₀, he⟩, hes⟩ := List.forall_mem_cons.mp hes
      have hown : (gs.map fun g => if e.group = some g then e.merged.toList.length else 0).sum =
          e.merged.toList.length := by
        have hother : ∀ g, g ≠ g₀ → g ∈ gs →
            (if e.group = some g then e.merged.toList.length else 0) = 0 :=
          fun g hne _ => if_neg fun h => hne (Option.some.inj (h.symm.trans he))
        rw [List.sum_map_eq_nsmul_single g₀ _ hother, List.count_eq_one_of_mem hgs hg₀,
          one_nsmul, if_pos he]
      have hsplit : ∀ g, (((e :: es).filter (·.group == some g)).filterMap Entry.merged).length =
          (if e.group = some g then e.merged.toList.length else 0) +
            ((es.filter (·.group == some g)).filterMap Entry.merged).length := by
        intro g
        by_cases hg : e.group = some g
        · cases hm : e.merged <;> simp [hg, hm, Nat.add_comm]
        · simp [hg]
      simp only [hsplit, List.sum_map_add, hown, ih hes, List.countP_cons]
      cases e.merged <;> simp [Nat.add_comm]

/-- An orderly registry is consistent. -/
theorem Orderly.consistent (hr : r.Orderly) : r.Consistent where
  merged_filed := fun n m h => by
    obtain ⟨e, he, hm⟩ := Option.bind_eq_some_iff.mp h
    have hname := hr.filed e (mem_of_entryOf? he) m (by simp [hm])
    exact ⟨hname.trans (name_of_entryOf? he), hr.isSome_tag? he⟩
  pending_filed := fun n p hp => by
    unfold pending at hp
    cases he : r.lookup n with
    | none => simp [he] at hp
    | some e =>
        rw [he] at hp
        have hname := hr.filed e (mem_of_entryOf? he) p (List.mem_append_right _ hp)
        exact ⟨hname.trans (name_of_entryOf? he), hr.isSome_tag? he⟩
  group_increasing := hr.group_increasing
  mem_group := fun g m => hr.mem_group_iff
  groups_disjoint := fun g g' hne => by
    intro n hn hn'
    obtain ⟨m, hm, rfl⟩ := List.mem_map.mp hn
    obtain ⟨m', hm', hname⟩ := List.mem_map.mp hn'
    have htag := (hr.mem_group_iff.mp hm).2
    have htag' := (hr.mem_group_iff.mp hm').2
    rw [hname] at htag'
    exact hne (Option.some.inj (htag.symm.trans htag'))
  groups_cover := fun gs hgs hall => by
    refine length_flatMap_groups hgs fun e he => ?_
    obtain ⟨g, hg⟩ := Option.isSome_iff_exists.mp (hr.grouped e he)
    refine ⟨g, hall e.name g ?_, hg⟩
    rw [tag?, lookup_eq, entryOf?_of_mem hr.increasing he]
    exact hg

/-! ### Merging is atomic -/

/-- Merges groups in order, visiting the names of each in the given order, up to the first that
fails. -/
def mergeGroupsVisiting (o : MapOrder) (r : Registry) :
    List String → Registry × Except Failure Unit
  | [] => (r, .ok ())
  | g :: gs =>
      match mergeGroupVisiting o r g with
      | .ok r' => mergeGroupsVisiting o r' gs
      | .error f => (r, .error f)

/-- The order in which names are visited decides neither what merging leaves nor whether it
succeeds; it may decide which of several failures is told. -/
theorem mergeGroupsVisiting_outcome (o : MapOrder) (hr : r.Orderly) (gs : List String) :
    (mergeGroupsVisiting o r gs).1 = (r.mergeGroups gs).1 ∧
      (mergeGroupsVisiting o r gs).2.toOption = (r.mergeGroups gs).2.toOption := by
  induction gs generalizing r with
  | nil => exact ⟨rfl, rfl⟩
  | cons g gs ih =>
      have hsame : ∀ r', mergeGroupVisiting o r g = .ok r' ↔ r.mergeGroup g = .ok r' :=
        fun _ => mergeGroupVisiting_eq_ok_iff hr
      unfold mergeGroupsVisiting mergeGroups
      cases hg : r.mergeGroup g with
      | ok r₁ =>
          rw [(hsame r₁).mpr hg]
          exact ih (hr.mergeGroup hg)
      | error f =>
          cases hv : mergeGroupVisiting o r g with
          | ok r₁ =>
              rw [(hsame r₁).mp hv] at hg
              cases hg
          | error f' => exact ⟨rfl, rfl⟩

/-- Merging everything is atomic for every name and loses nothing. -/
structure MergesAtomically (r : Registry) : Prop where
  /-- a name is left alone, or all that was held under it is merged -/
  atomic : ∀ n,
    (r.mergeAll.1.module? n = r.module? n ∧ r.mergeAll.1.pending n = r.pending n) ∨
      (r.mergeAll.1.pending n = [] ∧ ∃ m, r.mergeAll.1.module? n = some m ∧
        Module.merge ((r.module? n).toList ++ r.pending n) = .ok m)
  complete : r.mergeAll.2 = .ok () → ∀ n, r.mergeAll.1.pending n = []
  anyOrder : ∀ o : MapOrder,
    (mergeGroupsVisiting o r r.waitingGroups).1 = r.mergeAll.1 ∧
      ((mergeGroupsVisiting o r r.waitingGroups).2 = .ok () ↔ r.mergeAll.2 = .ok ())

theorem atomic_mergeAll (r : Registry) (n : Ident) :
    (r.mergeAll.1.module? n = r.module? n ∧ r.mergeAll.1.pending n = r.pending n) ∨
      (r.mergeAll.1.pending n = [] ∧ ∃ m, r.mergeAll.1.module? n = some m ∧
        Module.merge ((r.module? n).toList ++ r.pending n) = .ok m) := by
  unfold module? pending
  obtain ⟨he, he'⟩ | ⟨e, e', he, he', hsettles⟩ := lookup_mergeAll r n
  · rw [he, he']
    exact .inl ⟨rfl, rfl⟩
  · rw [he, he']
    rcases hsettles with rfl | hmerge
    · exact .inl ⟨rfl, rfl⟩
    · obtain ⟨-, rfl⟩ | ⟨-, m, hm, rfl⟩ := Entry.mergeParts_cases hmerge
      · exact .inl ⟨rfl, rfl⟩
      · exact .inr ⟨rfl, m, rfl, hm⟩

theorem Orderly.mergesAtomically (hr : r.Orderly) : r.MergesAtomically where
  atomic := atomic_mergeAll r
  complete := fun hok n => by
    unfold pending
    cases he : r.mergeAll.1.lookup n with
    | none => rfl
    | some e => exact hr.parts_of_mergeAll hok (mem_of_entryOf? he)
  anyOrder := fun o => by
    obtain ⟨hstate, houtcome⟩ := mergeGroupsVisiting_outcome o hr r.waitingGroups
    refine ⟨hstate, ?_⟩
    rw [← toOption_eq_some_iff, houtcome, toOption_eq_some_iff]
    rfl

/-! ### Whole runs -/

/-- Whatever calls were made on a new registry, a name keeps its group through all later calls, a
call is refused exactly when it claims a name of another group and then changes nothing, the
registry is consistent, and merging everything is atomic. -/
theorem safe_after (calls : List Call) :
    (∀ (more : List Call) n g, (after {} calls).tag? n = some g →
        (after {} (calls ++ more)).tag? n = some g) ∧
      (∀ (c : Call) g n, c.claim? = some (g, n) →
        (c.Refused (after {} calls) ↔ (after {} calls).TakenByOther g n) ∧
        (c.Refused (after {} calls) → after {} (calls ++ [c]) = after {} calls) ∧
        (¬ c.Refused (after {} calls) → (c.run (after {} calls)).2 = .ok ())) ∧
      (after {} calls).Consistent ∧ (after {} calls).MergesAtomically := by
  have hr : (after {} calls).Orderly := Orderly.empty.after calls
  refine ⟨fun more n g h => ?_, fun c g n hc => ?_, hr.consistent, hr.mergesAtomically⟩
  · rw [after_append]
    exact tag?_after hr h more
  · obtain ⟨htaken, hfree⟩ := Call.run_of_claim? (r := after {} calls) hc
    have hrefused : c.Refused (after {} calls) ↔ (after {} calls).TakenByOther g n := by
      constructor
      · rintro ⟨f, hf, -⟩
        by_contra hnot
        rw [hfree hnot] at hf
        cases hf
      · intro h
        obtain ⟨f, hrun, hcause⟩ := htaken h
        exact ⟨f, by rw [hrun], hcause⟩
    refine ⟨hrefused, fun h => ?_, fun h => hfree (hrefused.not.mp h)⟩
    obtain ⟨f, hrun, -⟩ := htaken (hrefused.mp h)
    rw [after_concat, hrun]

def petPart : Module :=
  { name := "pet", origin := "a.yaml", decls := [.struct { name := "Pet" }] }

/-- Parts of one name that cannot be merged: it is declared as a struct and as an enum. -/
def clashingTags : List Module :=
  [{ name := "tag", origin := "b.yaml", decls := [.struct { name := "Tag" }] },
    { name := "tag", origin := "c.yaml", decls := [.enum { name := "Tag" }] }]

/-- Parts of two groups, those of the second clash. -/
def clashingCalls : List Call := .add "apis" petPart :: clashingTags.map (.add "models")

def clashingEntry : Entry := { name := "tag", group := some "models", parts := clashingTags }

theorem exists_mergeIn_clashingEntry : ∃ f, clashingEntry.mergeIn "models" = .error f := by
  have hmerge : Module.merge clashingTags = Module.assemble "tag" clashingTags :=
    Module.merge_of_inOrder (List.cons_ne_nil _ _) (by decide) (by decide)
  have hsources : clashingEntry.mergeIn "models" =
      (Module.merge clashingTags).map fun m =>
        { clashingEntry with parts := [], merged := some m } := rfl
  rw [hsources, hmerge]
  exact ⟨_, rfl⟩

/-- The first of two groups is merged. -/
def halfMerged : Registry :=
  ⟨[{ name := "pet", group := some "apis", merged := some petPart }, clashingEntry]⟩

theorem mergeAll_clashing : ∃ f, (after {} clashingCalls).mergeAll = (halfMerged, .error f) := by
  have hgroups : (after {} clashingCalls).waitingGroups = ["apis", "models"] :=
    List.mergeSort_of_pairwise (by decide)
  have hpet : Entry.mergeParts { name := "pet", group := some "apis", parts := [petPart] } =
      .ok { name := "pet", group := some "apis", merged := some petPart } :=
    Entry.mergeParts_of_merge (List.cons_ne_nil _ _) (Module.merge_singleton petPart)
  have hapis : (after {} clashingCalls).mergeGroup "apis" = .ok halfMerged :=
    mergeGroup_eq_ok_iff.mpr (mapM_eq_ok_iff.mpr (.cons hpet (.cons rfl .nil)))
  obtain ⟨f, hf⟩ := exists_mergeIn_clashingEntry
  have hmodels : halfMerged.mergeGroup "models" = .error f := by
    rw [mergeGroup, halfMerged, List.mapM_cons, List.mapM_cons, hf]
    rfl
  refine ⟨f, ?_⟩
  simp only [mergeAll, hgroups, mergeGroups, hapis, hmodels]

/-- Merging fails in the second group and leaves a mixed registry, which is as safe as any. -/
theorem safe_after_clashing :
    (after {} clashingCalls).mergeAll.2.toOption = none ∧
      ((after {} (clashingCalls ++ [Call.mergeAll])).module? "pet").isSome ∧
      ((after {} (clashingCalls ++ [Call.mergeAll])).pending "tag").length = 2 ∧
      (after {} (clashingCalls ++ [Call.mergeAll])).Consistent ∧
      (after {} (clashingCalls ++ [Call.mergeAll])).tag? "tag" = some "models" ∧
      (Call.put "apis" { name := "tag" }).Refused
        (after {} (clashingCalls ++ [Call.mergeAll])) := by
  obtain ⟨htags, -⟩ := safe_after clashingCalls
  obtain ⟨-, hrefused, hconsistent, -⟩ := safe_after (clashingCalls ++ [Call.mergeAll])
  have htag : (after {} (clashingCalls ++ [Call.mergeAll])).tag? "tag" = some "models" :=
    htags [Call.mergeAll] "tag" "models" (by decide +kernel)
  obtain ⟨f, hmerge⟩ := mergeAll_clashing
  refine ⟨?_, ?_, ?_, hconsistent, htag, ?_⟩
  · rw [hmerge]
    rfl
  · rw [after_concat, Call.run, hmerge]
    rfl
  · rw [after_concat, Call.run, hmerge]
    rfl
  · exact (hrefused _ "apis" "tag" rfl).1.mpr ⟨"models", htag, by decide⟩

end Registry
end ClientLoom
