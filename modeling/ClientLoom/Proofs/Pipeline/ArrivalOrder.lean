import Mathlib.Data.List.Induction
import ClientLoom.Pipeline
import ClientLoom.Proofs.Registry.VisitOrder
import ClientLoom.Render

/-! # The order of arrival

What a run gives does not depend on the order in which parts arrive, nor on the order in which
the names of a group are visited, as long as parts of one name come from different origins
(`run_perm`).

Recording parts succeeds when no two groups claim one name (`exists_record_iff`), and then the
registry holds under each name the parts of that name in the order of arrival (`lookup_record`).
Another order of arrival rearranges the parts within entries only, which merging does not see
when their origins differ.  From the merged registry on, the stages are a function. -/

namespace ClientLoom
namespace Pipeline

open Registry (Entry MapOrder)

variable {parts qs : List Load.Part} {r r' : Registry}

/-! ### Recording parts -/

/-- No two groups claim one name. -/
def GroupsAgree (parts : List Load.Part) : Prop :=
  ∀ p ∈ parts, ∀ q ∈ parts, p.module.name = q.module.name → p.group = q.group

/-- The parts of one name in the order of arrival. -/
def partsNamed (parts : List Load.Part) (n : Ident) : List Module :=
  (parts.filter (·.module.name == n)).map Load.Part.module

/-- The entry of recorded parts for a name: the first of them decides the group. -/
def gathered? (parts : List Load.Part) (n : Ident) : Option Entry :=
  (parts.find? (·.module.name == n)).map fun p =>
    { name := n, group := some p.group, parts := partsNamed parts n }

/-- One more part joins the entry of its name when it is of the same group. -/
theorem gathered?_append {p : Load.Part}
    (hgroup : ∀ q, parts.find? (·.module.name == p.module.name) = some q → q.group = p.group)
    (n : Ident) :
    gathered? (parts ++ [p]) n =
      if p.module.name = n then
        let e := (gathered? parts n).getD { name := p.module.name }
        some { e with group := some p.group, parts := e.parts ++ [p.module] }
      else gathered? parts n := by
  unfold gathered? partsNamed
  rw [List.find?_append, List.filter_append]
  by_cases hn : p.module.name = n
  · cases hfind : parts.find? (·.module.name == n) with
    | none =>
        have hnil : parts.filter (·.module.name == n) = [] := by
          rw [List.filter_eq_nil_iff]
          exact List.find?_eq_none.mp hfind
        simp [hn, hnil]
    | some q => simp [hn, hgroup q (hn ▸ hfind)]
  · have hne : (p.module.name == n) = false := by simpa using hn
    simp [hn, hne]

/-- The first part of a name decides the group of the name. -/
theorem bind_group_gathered? (parts : List Load.Part) (n : Ident) :
    (gathered? parts n).bind Entry.group =
      (parts.find? (·.module.name == n)).map Load.Part.group := by
  unfold gathered?
  cases parts.find? (·.module.name == n) with
  | none => rfl
  | some p => rfl

/-- Recorded parts are found under their names. -/
theorem lookup_record (h : parts.foldlM record {} = .ok r) :
    r.Orderly ∧ ∀ n, r.lookup n = gathered? parts n := by
  induction parts using List.reverseRecOn generalizing r with
  | nil =>
      obtain rfl := Except.ok.inj h
      exact ⟨.empty, fun _ => rfl⟩
  | append_singleton parts p ih =>
      rw [List.foldlM_append, bind_eq_ok_iff] at h
      obtain ⟨r₁, h₁, h⟩ := h
      rw [List.foldlM_cons, bind_eq_ok_iff] at h
      obtain ⟨r₂, h₂, h⟩ := h
      obtain rfl := Except.ok.inj h
      obtain ⟨horderly, hlookup⟩ := ih h₁
      have hadd := settled_eq_ok_iff.mp h₂
      have hgroup q (hq : parts.find? (·.module.name == p.module.name) = some q) :
          q.group = p.group := by
        have htag := Registry.rival?_eq_none_iff.mp (Registry.exists_add_iff.mp ⟨_, hadd⟩)
        rw [Registry.tag?, hlookup, bind_group_gathered?, hq] at htag
        exact htag q.group rfl
      refine ⟨?_, fun n => ?_⟩
      · have horderly₂ := horderly.add p.group p.module
        rwa [hadd] at horderly₂
      · rw [Registry.lookup_add horderly.increasing hadd, gathered?_append hgroup, hlookup]

theorem groupsAgree_append {p : Load.Part} :
    GroupsAgree (parts ++ [p]) ↔
      GroupsAgree parts ∧ ∀ q ∈ parts, q.module.name = p.module.name → q.group = p.group := by
  unfold GroupsAgree
  constructor
  · intro h
    refine ⟨fun a ha b hb => h a (by simp [ha]) b (by simp [hb]), fun q hq => ?_⟩
    exact h q (by simp [hq]) p (by simp)
  · rintro ⟨hparts, hp⟩ a ha b hb hab
    simp only [List.mem_append, List.mem_singleton] at ha hb
    rcases ha with ha | rfl
    · rcases hb with hb | rfl
      · exact hparts a ha b hb hab
      · exact hp a ha hab
    · rcases hb with hb | rfl
      · exact (hp b hb hab.symm).symm
      · rfl

/-- A part asks the entry of its name, whose group is that of the first part of the name; where
the groups of earlier parts agree, it is the group of all of them. -/
theorem exists_record_one_iff (hr : parts.foldlM record {} = .ok r) (hagree : GroupsAgree parts)
    (p : Load.Part) :
    (∃ r', record r p = .ok r') ↔
      ∀ q ∈ parts, q.module.name = p.module.name → q.group = p.group := by
  unfold record
  simp only [settled_eq_ok_iff]
  rw [Registry.exists_add_iff, Registry.rival?_eq_none_iff, Registry.tag?, (lookup_record hr).2,
    bind_group_gathered?]
  constructor
  · intro h q hq hname
    cases hfind : parts.find? (·.module.name == p.module.name) with
    | none => exact absurd hname (by simpa using List.find?_eq_none.mp hfind q hq)
    | some q₀ =>
        have hq₀ : q₀.module.name = p.module.name := by simpa using List.find?_some hfind
        have hgroup : q₀.group = p.group := h _ (by rw [hfind]; rfl)
        rw [← hgroup]
        exact hagree q hq q₀ (List.mem_of_find?_eq_some hfind) (hname.trans hq₀.symm)
  · intro h g hg
    obtain ⟨q₀, hfind, rfl⟩ := Option.map_eq_some_iff.mp hg
    exact h q₀ (List.mem_of_find?_eq_some hfind) (by simpa using List.find?_some hfind)

/-- Parts can be recorded when no two groups claim one name. -/
theorem exists_record_iff : (∃ r, parts.foldlM record {} = .ok r) ↔ GroupsAgree parts := by
  induction parts using List.reverseRecOn with
  | nil => exact ⟨fun _ _ h => (nomatch h), fun _ => ⟨{}, rfl⟩⟩
  | append_singleton parts p ih =>
      have hlast {r : Registry} : [p].foldlM record r = record r p := by simp
      simp only [groupsAgree_append, List.foldlM_append, bind_eq_ok_iff, hlast]
      constructor
      · rintro ⟨r', r, hr, hr'⟩
        have hagree := ih.mp ⟨r, hr⟩
        exact ⟨hagree, (exists_record_one_iff hr hagree p).mp ⟨r', hr'⟩⟩
      · rintro ⟨hagree, h⟩
        obtain ⟨r, hr⟩ := ih.mpr hagree
        obtain ⟨r', hr'⟩ := (exists_record_one_iff hr hagree p).mpr h
        exact ⟨r', r, hr, hr'⟩

theorem collect_eq_ok_iff : collect parts = .ok r ↔ parts.foldlM record {} = .ok r :=
  locate_eq_ok_iff

/-! ### Rearranged parts -/

/-- Parts of one name come from different origins. -/
def OriginsApart (parts : List Load.Part) : Prop :=
  parts.Pairwise fun p q => p.module.name = q.module.name → p.module.origin ≠ q.module.origin

theorem GroupsAgree.perm (hqs : qs.Perm parts) : GroupsAgree qs ↔ GroupsAgree parts := by
  simp only [GroupsAgree, hqs.mem_iff]

theorem name_of_mem_partsNamed {n : Ident} {m : Module} (h : m ∈ partsNamed parts n) :
    m.name = n := by
  obtain ⟨p, hp, rfl⟩ := List.mem_map.mp h
  simpa using (List.mem_filter.mp hp).2

theorem partsNamed_ne_nil {n : Ident} {p : Load.Part} (hp : p ∈ parts) (hn : p.module.name = n) :
    partsNamed parts n ≠ [] := by
  have hmem : p ∈ parts.filter (·.module.name == n) := List.mem_filter.mpr ⟨hp, by simpa using hn⟩
  exact List.ne_nil_of_mem (List.mem_map_of_mem hmem)

theorem OriginsApart.nodup_origin (h : OriginsApart parts) (n : Ident) :
    ((partsNamed parts n).map Module.origin).Nodup := by
  unfold partsNamed
  rw [List.map_map, List.Nodup, List.pairwise_map]
  have hsub : OriginsApart (parts.filter (·.module.name == n)) := h.sublist List.filter_sublist
  have hname {p : Load.Part} (hp : p ∈ parts.filter (·.module.name == n)) : p.module.name = n := by
    simpa using (List.mem_filter.mp hp).2
  refine List.Pairwise.imp_of_mem (fun hp hq hpq => ?_) hsub
  exact hpq ((hname hp).trans (hname hq).symm)

/-- Merging does not see in which order the parts of a name arrived. -/
theorem OriginsApart.merge_partsNamed (h : OriginsApart parts) (hqs : qs.Perm parts) (n : Ident) :
    Module.merge (partsNamed qs n) = Module.merge (partsNamed parts n) := by
  have hperm : (partsNamed qs n).Perm (partsNamed parts n) := (hqs.filter _).map _
  refine Module.merge_eq_of_perm (fun p hp => name_of_mem_partsNamed hp) hperm ?_
  intro a ha b hb hab
  exact List.inj_on_of_nodup_map (h.nodup_origin n) ha hb hab.1

/-- Under each name, both orders of arrival leave entries that merge alike. -/
theorem OriginsApart.mergeParts_gathered? (h : OriginsApart parts) (hqs : qs.Perm parts)
    (hgroups : GroupsAgree parts) (n : Ident) :
    Option.Rel (fun e' e => e'.mergeParts = e.mergeParts) (gathered? qs n) (gathered? parts n) := by
  unfold gathered?
  cases hq : qs.find? (·.module.name == n) with
  | none =>
      have hp : parts.find? (·.module.name == n) = none := by
        rw [List.find?_eq_none] at hq ⊢
        exact fun p hp => hq p (hqs.mem_iff.mpr hp)
      rw [hp]
      exact .none
  | some q =>
      have hqmem : q ∈ parts := hqs.mem_iff.mp (List.mem_of_find?_eq_some hq)
      have hqname : q.module.name = n := by simpa using List.find?_some hq
      cases hp : parts.find? (·.module.name == n) with
      | none => exact absurd hqname (by simpa using List.find?_eq_none.mp hp q hqmem)
      | some p =>
          have hpname : p.module.name = n := by simpa using List.find?_some hp
          have hgroup : q.group = p.group :=
            hgroups q hqmem p (List.mem_of_find?_eq_some hp) (hqname.trans hpname.symm)
          refine .some ?_
          have hq' : partsNamed qs n ≠ [] :=
            partsNamed_ne_nil (hqs.mem_iff.mpr hqmem) hqname
          have hp' : partsNamed parts n ≠ [] := partsNamed_ne_nil hqmem hqname
          unfold Entry.mergeParts Entry.sources
          simp only [List.isEmpty_iff, hq', hp', if_false, Option.toList_none, List.nil_append,
            hgroup, h.merge_partsNamed hqs n]

/-- Both orders of arrival lead to the same merged entries. -/
theorem OriginsApart.mapM_mergeParts (h : OriginsApart parts) (hqs : qs.Perm parts)
    (hr' : qs.foldlM record {} = .ok r') (hr : parts.foldlM record {} = .ok r) :
    r'.entries.mapM Entry.mergeParts = r.entries.mapM Entry.mergeParts := by
  have hgroups : GroupsAgree parts := exists_record_iff.mp ⟨r, hr⟩
  obtain ⟨horderly', hlookup'⟩ := lookup_record hr'
  obtain ⟨horderly, hlookup⟩ := lookup_record hr
  refine mapM_congr_forall₂ ?_
  refine Registry.forall₂_of_entryOf? horderly'.increasing horderly.increasing fun n => ?_
  rw [← Registry.lookup_eq, ← Registry.lookup_eq, hlookup', hlookup]
  exact h.mergeParts_gathered? hqs hgroups n

/-! ### Whole runs -/

/-- What a run gives when the names of each group are visited in the given order. -/
def runVisiting (o : MapOrder) (s : Settings) (cancelled : Bool) (parts : List Load.Part) :
    Except Failure Output := do
  let r ← collect parts
  let r ← locate "merge" (r.mergeAllVisiting o)
  (stages s cancelled r).result

/-- The registry after the merge. -/
def Merged (parts : List Load.Part) (r' : Registry) : Prop :=
  ∃ r, collect parts = .ok r ∧ r.entries.mapM Entry.mergeParts = .ok r'.entries

theorem result_merge_eq_ok_iff : (merge parts).result = .ok r' ↔ Merged parts r' := by
  unfold merge Merged
  rw [Logged.result_bind, Logged.result_ofExcept, bind_eq_ok_iff]
  refine exists_congr fun r => and_congr_right fun hr => ?_
  have horderly := (lookup_record (collect_eq_ok_iff.mp hr)).1
  rw [← horderly.mergeAll_eq_ok_iff]
  obtain ⟨merged, result⟩ := r.mergeAll
  cases result with
  | error f => exact ⟨fun h => (nomatch h), fun h => (nomatch (Prod.mk.inj h).2)⟩
  | ok u =>
      show Except.ok merged = Except.ok r' ↔ _
      rw [Except.ok.injEq, Prod.mk.injEq]
      exact (and_iff_left rfl).symm

theorem result_run_eq_ok_iff {s : Settings} {cancelled : Bool} {out : Output} :
    (run s cancelled parts).result = .ok out ↔
      ∃ r, Merged parts r ∧ (stages s cancelled r).result = .ok out := by
  unfold run
  rw [Logged.result_bind, bind_eq_ok_iff]
  simp only [result_merge_eq_ok_iff]

theorem runVisiting_eq_ok_iff {o : MapOrder} {s : Settings} {cancelled : Bool} {out : Output} :
    runVisiting o s cancelled parts = .ok out ↔
      ∃ r, Merged parts r ∧ (stages s cancelled r).result = .ok out := by
  unfold runVisiting Merged
  simp only [bind_eq_ok_iff, locate_eq_ok_iff]
  constructor
  · rintro ⟨r, hr, r', hr', h⟩
    have horderly := (lookup_record (collect_eq_ok_iff.mp hr)).1
    rw [Registry.mergeAllVisiting_eq_ok_iff horderly, horderly.mergeAll_eq_ok_iff] at hr'
    exact ⟨r', ⟨r, hr, hr'⟩, h⟩
  · rintro ⟨r', ⟨r, hr, hr'⟩, h⟩
    have horderly := (lookup_record (collect_eq_ok_iff.mp hr)).1
    rw [← horderly.mergeAll_eq_ok_iff, ← Registry.mergeAllVisiting_eq_ok_iff horderly] at hr'
    exact ⟨r, hr, r', hr', h⟩

/-- The merged registry does not depend on the order of arrival. -/
theorem OriginsApart.merged_perm (h : OriginsApart parts) (hqs : qs.Perm parts) :
    Merged qs r' ↔ Merged parts r' := by
  have hgroups : GroupsAgree qs ↔ GroupsAgree parts := GroupsAgree.perm hqs
  rw [← exists_record_iff, ← exists_record_iff] at hgroups
  unfold Merged
  simp only [collect_eq_ok_iff]
  constructor
  · rintro ⟨r₁, hr₁, hmerged⟩
    obtain ⟨r, hr⟩ := hgroups.mp ⟨r₁, hr₁⟩
    exact ⟨r, hr, h.mapM_mergeParts hqs hr₁ hr ▸ hmerged⟩
  · rintro ⟨r, hr, hmerged⟩
    obtain ⟨r₁, hr₁⟩ := hgroups.mpr ⟨r, hr⟩
    exact ⟨r₁, hr₁, (h.mapM_mergeParts hqs hr₁ hr).trans hmerged⟩

/-- The texts of the units of a run. -/
def Output.texts (version : String) (out : Output) : List String :=
  out.units.map (SourceFile.render version)

/-- Parts of one name that come from different origins may arrive in any order, and the names of
a group may be visited in any order: the run fails for all orders or gives the same units for all,
which then are written as the same texts. -/
theorem run_perm (s : Settings) (o o' : MapOrder) (hqs : qs.Perm parts)
    (horigins : OriginsApart parts) :
    (runVisiting o s false qs).toOption = (runVisiting o' s false parts).toOption ∧
      (run s false qs).result.toOption = (run s false parts).result.toOption ∧
      (runVisiting o s false qs).toOption = (run s false qs).result.toOption ∧
      ∀ version, (runVisiting o s false qs).toOption.map (Output.texts version) =
        (runVisiting o' s false parts).toOption.map (Output.texts version) := by
  have hvisiting :
      (runVisiting o s false qs).toOption = (runVisiting o' s false parts).toOption := by
    rw [toOption_eq_iff]
    intro out
    simp only [runVisiting_eq_ok_iff, horigins.merged_perm hqs]
  have hrun : (run s false qs).result.toOption = (run s false parts).result.toOption := by
    rw [toOption_eq_iff]
    intro out
    simp only [result_run_eq_ok_iff, horigins.merged_perm hqs]
  have hsame : (runVisiting o s false qs).toOption = (run s false qs).result.toOption := by
    rw [toOption_eq_iff]
    intro out
    rw [runVisiting_eq_ok_iff, result_run_eq_ok_iff]
  refine ⟨hvisiting, hrun, hsame, fun version => ?_⟩
  rw [hvisiting]

/-- Parts of two modules, one of which comes from two files. -/
def petParts : List Load.Part :=
  [⟨"models", { name := "pet", origin := "pet.yaml", decls := [.struct { name := "Pet" }] }⟩,
    ⟨"models", { name := "pet", origin := "tag.yaml", decls := [.struct { name := "Tag" }] }⟩,
    ⟨"models", { name := "owner", origin := "owner.yaml" }⟩]

/-- Names are visited from the last to the first. -/
def backwards : MapOrder := ⟨fun _ names => names.reverse, fun _ names => names.reverse_perm⟩

theorem run_perm_pet :
    petParts.reverse.Perm petParts ∧ OriginsApart petParts ∧
      (runVisiting backwards .usual false petParts.reverse).toOption =
        (run .usual false petParts).result.toOption := by
  have hperm : petParts.reverse.Perm petParts := List.reverse_perm petParts
  have horigins : OriginsApart petParts := by simp [OriginsApart, petParts]
  obtain ⟨-, hrun, hsame, -⟩ := run_perm .usual backwards backwards hperm horigins
  exact ⟨hperm, horigins, hsame.trans hrun⟩

end Pipeline
end ClientLoom
