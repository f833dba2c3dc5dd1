import ClientLoom.Proofs.Module.Replay
import ClientLoom.Proofs.Pipeline.ArrivalOrder
import ClientLoom.Proofs.Registry.Calls

/-! # Merging in between

Parts may be merged whenever one likes while more of them arrive: what is there in the end is what
one merge of all parts leaves (`interleaved_eq_batch`), as long as the parts of a name arrive in
strictly increasing order of origins and none of these is empty.

Both runs are compared with the list of recorded parts.  At any time an entry of the registry
`Follows` what was gathered under its name: the first of the parts are merged, the others wait.
Recording a part and merging everything keep this (`Tracks.add`, `Tracks.mergeAll`), and once
nothing waits there is only one such registry (`Tracks.unique`). -/

namespace ClientLoom

namespace Registry

variable {r r' : Registry} {e e' : Entry} {calls more : List Call}

/-- Every call succeeds. -/
def AllSucceed (r : Registry) : List Call → Prop
  | [] => True
  | c :: calls => (c.run r).2 = .ok () ∧ AllSucceed (c.run r).1 calls

theorem allSucceed_append :
    r.AllSucceed (calls ++ more) ↔ r.AllSucceed calls ∧ (r.after calls).AllSucceed more := by
  induction calls generalizing r with
  | nil => exact (and_iff_right trivial).symm
  | cons c calls ih => exact (and_congr_right fun _ => ih).trans and_assoc.symm

theorem allSucceed_concat {c : Call} :
    r.AllSucceed (calls ++ [c]) ↔ r.AllSucceed calls ∧ (c.run (r.after calls)).2 = .ok () := by
  rw [allSucceed_append]
  exact and_congr_right fun _ => and_iff_left trivial

/-- Whether a call merges. -/
def Call.isMerge : Call → Bool
  | .mergeAll => true
  | _ => false

/-- Merging changes nothing when nothing waits. -/
theorem mergeAll_of_nothing_waits (h : ∀ e ∈ r.entries, e.parts = []) :
    r.mergeAll = (r, .ok ()) := by
  have hnone : r.entries.filter (!·.parts.isEmpty) = [] :=
    List.filter_eq_nil_iff.mpr fun e he => by simp [h e he]
  have hgroups : r.waitingGroups = [] := by
    unfold waitingGroups
    rw [hnone]
    exact List.mergeSort_nil
  unfold mergeAll
  rw [hgroups]
  rfl

end Registry

namespace Pipeline

open Registry (Entry Call)

variable {parts : List Load.Part} {p : Load.Part} {calls : List Call} {r r' : Registry}
  {e b : Entry} {n : Ident}

/-! ### Parts in sequence -/

/-- Parts of one name have strictly increasing origins. -/
def OriginsIncrease (parts : List Load.Part) : Prop :=
  parts.Pairwise fun p q => p.module.name = q.module.name →
    Text.rank p.module.origin < Text.rank q.module.origin

/-- Parts that can be recorded and merged, with origins that say in which order. -/
structure InSequence (parts : List Load.Part) : Prop where
  increasing : OriginsIncrease parts
  present : ∀ p ∈ parts, p.module.origin ≠ ""
  groups : GroupsAgree parts
  kinds : ∀ n, Module.KindsAgree ((partsNamed parts n).flatMap Module.decls)

theorem partsNamed_append (more : List Load.Part) (n : Ident) :
    partsNamed (parts ++ more) n = partsNamed parts n ++ partsNamed more n := by
  simp [partsNamed]

theorem InSequence.before (h : InSequence (parts ++ [p])) : InSequence parts where
  increasing := (List.pairwise_append.mp h.increasing).1
  present := fun q hq => h.present q (List.mem_append_left _ hq)
  groups := (groupsAgree_append.mp h.groups).1
  kinds := fun n => by
    refine (h.kinds n).sublist ?_
    rw [partsNamed_append, List.flatMap_append]
    exact List.sublist_append_left _ _

theorem InSequence.origins (h : InSequence parts) (n : Ident) :
    (partsNamed parts n).Pairwise fun p q => Text.rank p.origin < Text.rank q.origin := by
  unfold partsNamed
  rw [List.pairwise_map]
  have hname {p : Load.Part} (hp : p ∈ parts.filter (·.module.name == n)) : p.module.name = n := by
    simpa using (List.mem_filter.mp hp).2
  refine (h.increasing.sublist List.filter_sublist).imp_of_mem fun hp hq hpq => ?_
  exact hpq ((hname hp).trans (hname hq).symm)

theorem InSequence.origin_ne (h : InSequence parts) {m : Module} (hm : m ∈ partsNamed parts n) :
    m.origin ≠ "" := by
  obtain ⟨p, hp, rfl⟩ := List.mem_map.mp hm
  exact h.present p (List.mem_of_mem_filter hp)

/-! ### Entries that follow what was gathered -/

/-- The module that was merged from the given parts, if there are any. -/
def MergedFrom (done : List Module) : Option Module → Prop
  | none => done = []
  | some m => Module.merge done = .ok m

/-- An entry holds the parts of another: the first of them merged, the others waiting. -/
structure Follows (e b : Entry) : Prop where
  name_eq : e.name = b.name
  group_eq : e.group = b.group
  parts_eq : ∃ done, b.parts = done ++ e.parts ∧ MergedFrom done e.merged

theorem gathered?_eq_some (h : gathered? parts n = some b) :
    b.name = n ∧ b.parts = partsNamed parts n ∧ b.merged = none := by
  obtain ⟨p, -, rfl⟩ := Option.map_eq_some_iff.mp h
  exact ⟨rfl, rfl, rfl⟩

theorem Follows.add (h : Follows e b) (g : String) (m : Module) :
    Follows { e with group := some g, parts := e.parts ++ [m] }
      { b with group := some g, parts := b.parts ++ [m] } where
  name_eq := h.name_eq
  group_eq := rfl
  parts_eq := by
    obtain ⟨done, hparts, hdone⟩ := h.parts_eq
    exact ⟨done, by rw [hparts, List.append_assoc], hdone⟩

/-- An entry that follows parts in sequence can be merged, and then it holds all of them merged. -/
theorem Follows.mergeParts (h : Follows e b) (hseq : InSequence parts)
    (hb : gathered? parts n = some b) : ∃ e', e.mergeParts = .ok e' ∧ Follows e' b := by
  obtain ⟨-, hgathered, -⟩ := gathered?_eq_some hb
  obtain ⟨done, hparts, hdone⟩ := h.parts_eq
  rcases eq_or_ne e.parts [] with hnil | hne
  · exact ⟨e, Entry.mergeParts_of_parts_eq_nil hnil, h⟩
  · have hname : ∀ p ∈ done ++ e.parts, p.name = n := by
      rw [← hparts, hgathered]
      exact fun p hp => name_of_mem_partsNamed hp
    have horigins : (done ++ e.parts).Pairwise
        fun p q => Text.rank p.origin < Text.rank q.origin := by
      rw [← hparts, hgathered]
      exact hseq.origins n
    have hsome : ∀ p ∈ e.parts, p.origin ≠ "" := by
      intro p hp
      refine hseq.origin_ne (n := n) ?_
      rw [← hgathered, hparts]
      exact List.mem_append_right _ hp
    have hkinds : Module.KindsAgree ((done ++ e.parts).flatMap Module.decls) := by
      rw [← hparts, hgathered]
      exact hseq.kinds n
    obtain ⟨m, hm⟩ :=
      (Module.exists_merge_iff (List.append_ne_nil_of_right_ne_nil _ hne) hname).mpr hkinds
    have hsources : Module.merge (e.merged.toList ++ e.parts) = .ok m := by
      cases hmerged : e.merged with
      | none =>
          rw [hmerged] at hdone
          rw [MergedFrom] at hdone
          rwa [hdone] at hm
      | some m₀ =>
          rw [hmerged] at hdone
          exact (Module.merge_cons_eq_ok_iff hdone hne hname horigins hsome).mpr hm
    refine ⟨_, Entry.mergeParts_of_merge hne hsources, h.name_eq, h.group_eq, b.parts, ?_, ?_⟩
    · rw [List.append_nil]
    · rw [hparts]
      exact hm

/-- There is only one entry that follows another and has nothing waiting. -/
theorem Follows.unique {e' : Entry} (h : Follows e b) (h' : Follows e' b) (hnil : e.parts = [])
    (hnil' : e'.parts = []) : e = e' := by
  obtain ⟨done, hparts, hdone⟩ := h.parts_eq
  obtain ⟨done', hparts', hdone'⟩ := h'.parts_eq
  rw [hnil, List.append_nil] at hparts
  rw [hnil', List.append_nil] at hparts'
  subst hparts
  subst hparts'
  have hmerged : e.merged = e'.merged := by
    cases hm : e.merged with
    | none =>
        rw [hm, MergedFrom] at hdone
        cases hm' : e'.merged with
        | none => rfl
        | some m' =>
            rw [hm', MergedFrom, hdone] at hdone'
            cases hdone'
    | some m =>
        rw [hm, MergedFrom] at hdone
        cases hm' : e'.merged with
        | none =>
            rw [hm', MergedFrom] at hdone'
            rw [hdone'] at hdone
            cases hdone
        | some m' => rw [Except.ok.inj (hdone.symm.trans (hm' ▸ hdone'))]
  obtain ⟨name, group, parts, merged⟩ := e
  obtain ⟨name', group', parts', merged'⟩ := e'
  obtain rfl : name = name' := h.name_eq.trans h'.name_eq.symm
  obtain rfl : group = group' := h.group_eq.trans h'.group_eq.symm
  obtain rfl : merged = merged' := hmerged
  obtain rfl : parts = [] := hnil
  obtain rfl : parts' = [] := hnil'
  rfl

/-! ### Registries that track what was recorded -/

/-- Under every name a registry follows what was gathered from the recorded parts. -/
structure Tracks (r : Registry) (parts : List Load.Part) : Prop where
  orderly : r.Orderly
  follows : ∀ n, Option.Rel Follows (r.lookup n) (gathered? parts n)

theorem tracks_empty : Tracks {} [] := ⟨.empty, fun _ => .none⟩

/-- A registry gives a name the group of the first part that was recorded under it. -/
theorem Tracks.tag?_eq (h : Tracks r parts) (n : Ident) :
    r.tag? n = (parts.find? (·.module.name == n)).map Load.Part.group := by
  rw [Registry.tag?, ← bind_group_gathered?]
  have hrel := h.follows n
  generalize r.lookup n = e? at hrel ⊢
  generalize gathered? parts n = b? at hrel ⊢
  cases hrel with
  | none => rfl
  | some hfollows => exact hfollows.group_eq

/-- A part in sequence can be recorded. -/
theorem Tracks.add (h : Tracks r parts) (hgroups : GroupsAgree (parts ++ [p])) :
    ∃ r', r.add p.group p.module = (r', .ok ()) ∧ Tracks r' (parts ++ [p]) := by
  have hgroup q (hq : parts.find? (·.module.name == p.module.name) = some q) :
      q.group = p.group := by
    have hname : q.module.name = p.module.name := by simpa using List.find?_some hq
    exact (groupsAgree_append.mp hgroups).2 q (List.mem_of_find?_eq_some hq) hname
  have hfree : r.rival? p.group p.module.name = none := by
    rw [Registry.rival?_eq_none_iff, h.tag?_eq]
    intro g hg
    obtain ⟨q, hq, rfl⟩ := Option.map_eq_some_iff.mp hg
    exact hgroup q hq
  obtain ⟨r', hr'⟩ := Registry.exists_add_iff.mpr hfree
  have horderly := h.orderly.add p.group p.module
  rw [hr'] at horderly
  refine ⟨r', hr', horderly, fun n => ?_⟩
  rw [Registry.lookup_add h.orderly.increasing hr', gathered?_append hgroup]
  split
  · have hrel := h.follows n
    generalize r.lookup n = e? at hrel ⊢
    generalize gathered? parts n = b? at hrel ⊢
    refine .some ?_
    cases hrel with
    | none => exact ⟨rfl, rfl, [], rfl, rfl⟩
    | some hfollows => exact hfollows.add p.group p.module
  · exact h.follows n

/-- What was recorded in sequence can be merged. -/
theorem Tracks.mergeAll (h : Tracks r parts) (hseq : InSequence parts) :
    r.mergeAll.2 = .ok () ∧ Tracks r.mergeAll.1 parts := by
  have hentry : ∀ e ∈ r.entries,
      ∃ e', e.mergeParts = .ok e' ∧ Option.Rel Follows (some e') (gathered? parts e.name) := by
    intro e he
    have hrel := h.follows e.name
    rw [Registry.lookup_eq, Registry.entryOf?_of_mem h.orderly.increasing he] at hrel
    generalize hb : gathered? parts e.name = b? at hrel
    cases hrel with
    | some hfollows =>
        obtain ⟨e', he', hfollows'⟩ := hfollows.mergeParts hseq hb
        exact ⟨e', he', .some hfollows'⟩
  obtain ⟨es, hes⟩ := exists_mapM_eq_ok_iff.mpr fun e he => (hentry e he).imp fun _ h => h.1
  have hok : r.mergeAll = (⟨es⟩, .ok ()) := h.orderly.mergeAll_eq_ok_iff.mpr hes
  refine ⟨by rw [hok], h.orderly.mergeAll, fun n => ?_⟩
  rw [hok, Registry.lookup_eq]
  -- the entry of a name comes from the entry of that name
  have hrel := Registry.rel_entryOf? (fun _ _ h => (Entry.name_of_mergeParts h).symm)
    (mapM_eq_ok_iff.mp hes) n
  have hbefore := h.follows n
  rw [Registry.lookup_eq] at hbefore
  generalize he : Registry.entryOf? r.entries n = e? at hrel hbefore
  generalize Registry.entryOf? es n = e'? at hrel ⊢
  cases hrel with
  | none => exact hbefore
  | some hmerge =>
      obtain ⟨e', he', hfollows⟩ := hentry _ (Registry.mem_of_entryOf? he)
      rw [Registry.name_of_entryOf? he] at hfollows
      rwa [← Except.ok.inj (he'.symm.trans hmerge)]

/-- Where nothing waits the recorded parts decide what the registry holds. -/
theorem Tracks.unique (h : Tracks r parts) (h' : Tracks r' parts)
    (hnil : ∀ e ∈ r.entries, e.parts = []) (hnil' : ∀ e ∈ r'.entries, e.parts = []) : r = r' := by
  have hsame : List.Forall₂ Eq r.entries r'.entries := by
    refine Registry.forall₂_of_entryOf? h.orderly.increasing h'.orderly.increasing fun n => ?_
    have hrel := h.follows n
    have hrel' := h'.follows n
    rw [Registry.lookup_eq] at hrel hrel'
    generalize he : Registry.entryOf? r.entries n = e? at hrel ⊢
    generalize he' : Registry.entryOf? r'.entries n = e'? at hrel' ⊢
    generalize gathered? parts n = b? at hrel hrel'
    cases hrel with
    | none =>
        cases hrel'
        exact .none
    | some hfollows =>
        cases hrel' with
        | some hfollows' =>
            exact .some (hfollows.unique hfollows' (hnil _ (Registry.mem_of_entryOf? he))
              (hnil' _ (Registry.mem_of_entryOf? he')))
  exact congrArg Registry.mk (List.forall₂_eq_eq_eq ▸ hsame)

/-! ### Runs with merges in between -/

/-- The call that records a part. -/
def addCall (p : Load.Part) : Call := .add p.group p.module

/-- The calls record the parts in order and merge at any places in between. -/
def Interleaves (calls : List Call) (parts : List Load.Part) : Prop :=
  calls.filter (!·.isMerge) = parts.map addCall

theorem interleaves_map_addCall : Interleaves (parts.map addCall) parts :=
  List.filter_eq_self.mpr fun c hc => by
    obtain ⟨p, -, rfl⟩ := List.mem_map.mp hc
    rfl

/-- Merging may happen at any place: all calls succeed, and the registry tracks the recorded
parts. -/
theorem tracks_of_interleaves (hseq : InSequence parts) (hcalls : Interleaves calls parts) :
    Registry.AllSucceed {} calls ∧ Tracks (Registry.after {} calls) parts := by
  induction calls using List.reverseRecOn generalizing parts with
  | nil =>
      obtain rfl : parts = [] := List.map_eq_nil_iff.mp hcalls.symm
      exact ⟨trivial, tracks_empty⟩
  | append_singleton calls c ih =>
      rw [Registry.allSucceed_concat, Registry.after_concat]
      unfold Interleaves at hcalls
      rw [List.filter_append] at hcalls
      cases hmerge : c.isMerge with
      | true =>
          obtain rfl : c = .mergeAll := by
            cases c with
            | mergeAll => rfl
            | _ => cases hmerge
          obtain ⟨hall, htracks⟩ := ih hseq ((List.append_nil _).symm.trans hcalls)
          obtain ⟨hok, htracks'⟩ := htracks.mergeAll hseq
          exact ⟨⟨hall, hok⟩, htracks'⟩
      | false =>
          have hlast : [c].filter (!·.isMerge) = [c] := by simp [hmerge]
          rw [hlast] at hcalls
          -- the call records the last part
          obtain ⟨before, last, rfl, hbefore, hc⟩ := List.map_eq_append_iff.mp hcalls.symm
          obtain ⟨p, rfl, rfl⟩ := List.map_eq_singleton_iff.mp hc
          obtain ⟨hall, htracks⟩ := ih hseq.before hbefore.symm
          obtain ⟨r', hr', htracks'⟩ := htracks.add hseq.groups
          have hrun : (addCall p).run (Registry.after {} calls) = (r', .ok ()) := hr'
          rw [hrun]
          exact ⟨⟨hall, rfl⟩, htracks'⟩

theorem foldlM_record_of_allSucceed (h : r.AllSucceed (parts.map addCall)) :
    parts.foldlM record r = .ok (r.after (parts.map addCall)) := by
  induction parts generalizing r with
  | nil => rfl
  | cons p parts ih =>
      obtain ⟨hp, hparts⟩ := h
      have hadd : record r p = .ok ((addCall p).run r).1 :=
        settled_eq_ok_iff.mpr (Prod.ext rfl hp)
      rw [List.foldlM_cons, hadd]
      exact ih hparts

/-- Parts that can be merged in one go are in sequence when their origins are. -/
theorem inSequence_of_batch (hincreasing : OriginsIncrease parts)
    (hpresent : ∀ p ∈ parts, p.module.origin ≠ "")
    (hbatch : Registry.AllSucceed {} (parts.map addCall ++ [Call.mergeAll])) :
    InSequence parts := by
  obtain ⟨hadds, hmerge⟩ := Registry.allSucceed_concat.mp hbatch
  have hrecord := foldlM_record_of_allSucceed hadds
  refine ⟨hincreasing, hpresent, exists_record_iff.mp ⟨_, hrecord⟩, fun n => ?_⟩
  rcases eq_or_ne (partsNamed parts n) [] with hnil | hne
  · rw [hnil]
    exact Module.exists_makes_iff.mp ⟨[], Module.makes_nil⟩
  · refine (Module.exists_merge_iff hne fun m hm => name_of_mem_partsNamed hm).mp ?_
    obtain ⟨horderly, hrecorded⟩ := lookup_record hrecord
    have hall := horderly.mergeAll_eq_ok_iff.mp (Prod.ext rfl hmerge)
    have hlookup := hrecorded n
    cases hg : gathered? parts n with
    | none =>
        have hnone := List.find?_eq_none.mp (Option.map_eq_none_iff.mp hg)
        refine absurd ?_ hne
        rw [partsNamed, List.filter_eq_nil_iff.mpr hnone, List.map_nil]
    | some b =>
        obtain ⟨-, hparts, hmerged⟩ := gathered?_eq_some hg
        rw [hg] at hlookup
        obtain ⟨b', -, hb'⟩ := exists_mem_of_mapM hall (Registry.mem_of_entryOf? hlookup)
        obtain ⟨hnil, -⟩ | ⟨-, m, hm, -⟩ := Entry.mergeParts_cases hb'
        · exact absurd (hparts.symm.trans hnil) hne
        · rw [hmerged, hparts] at hm
          exact ⟨m, hm⟩

/-- Merging in between is merging in the end.  If all parts can be recorded and merged at once,
and the parts of a name come in strictly increasing order of origins that are not empty, then
merges may be inserted anywhere: all calls succeed, and after a last merge the registry is that of
the run without them, with nothing waiting.  A merge when nothing waits changes nothing. -/
theorem interleaved_eq_batch (parts : List Load.Part) (calls : List Call)
    (hincreasing : OriginsIncrease parts) (hpresent : ∀ p ∈ parts, p.module.origin ≠ "")
    (hbatch : Registry.AllSucceed {} (parts.map addCall ++ [Call.mergeAll]))
    (hcalls : Interleaves calls parts) :
    Registry.AllSucceed {} (calls ++ [Call.mergeAll]) ∧
      Registry.after {} (calls ++ [Call.mergeAll]) =
        Registry.after {} (parts.map addCall ++ [Call.mergeAll]) ∧
      (∀ e ∈ (Registry.after {} (calls ++ [Call.mergeAll])).entries, e.parts = []) ∧
      ∀ r : Registry, (∀ e ∈ r.entries, e.parts = []) → r.mergeAll = (r, .ok ()) := by
  have hseq := inSequence_of_batch hincreasing hpresent hbatch
  have hfinal {calls : List Call} (hcalls : Interleaves calls parts) :
      Registry.AllSucceed {} (calls ++ [Call.mergeAll]) ∧
        Tracks (Registry.after {} (calls ++ [Call.mergeAll])) parts ∧
        ∀ e ∈ (Registry.after {} (calls ++ [Call.mergeAll])).entries, e.parts = [] := by
    obtain ⟨hall, htracks⟩ := tracks_of_interleaves hseq hcalls
    obtain ⟨hok, htracks'⟩ := htracks.mergeAll hseq
    rw [Registry.allSucceed_concat, Registry.after_concat]
    exact ⟨⟨hall, hok⟩, htracks', fun e he => htracks.orderly.parts_of_mergeAll hok he⟩
  obtain ⟨hall, htracks, hnil⟩ := hfinal hcalls
  obtain ⟨-, htracks', hnil'⟩ := hfinal interleaves_map_addCall
  exact ⟨hall, htracks.unique htracks' hnil hnil', hnil,
    fun r h => Registry.mergeAll_of_nothing_waits h⟩

/-- The parts of a pet module with a merge before, between and after them. -/
def eagerCalls : List Call := [Call.mergeAll] ++ petParts.flatMap fun p => [addCall p, .mergeAll]

theorem mergeAll_petParts : (Registry.after {} (petParts.map addCall)).mergeAll.2 = .ok () := by
  have hrecord : petParts.foldlM record {} = .ok (Registry.after {} (petParts.map addCall)) := rfl
  have hnames : ∀ m ∈ partsNamed petParts "pet", m.name = "pet" :=
    fun _ hm => name_of_mem_partsNamed hm
  have howner := Entry.mergeParts_of_merge
    (e := { name := "owner", group := some "models", parts := partsNamed petParts "owner" })
    (List.cons_ne_nil _ _) (Module.merge_singleton _)
  have hpet := Entry.mergeParts_of_merge
    (e := { name := "pet", group := some "models", parts := partsNamed petParts "pet" })
    (List.cons_ne_nil _ _)
    (Module.merge_of_inOrder (List.cons_ne_nil _ _) hnames (by decide))
  have hmerge := (lookup_record hrecord).1.mergeAll_eq_ok_iff.mpr
    (mapM_eq_ok_iff.mpr (.cons howner (.cons hpet .nil)))
  rw [hmerge]

theorem interleaved_eq_batch_pet :
    OriginsIncrease petParts ∧ (∀ p ∈ petParts, p.module.origin ≠ "") ∧
      Registry.AllSucceed {} (petParts.map addCall ++ [Call.mergeAll]) ∧
      Interleaves eagerCalls petParts ∧
      Registry.after {} (eagerCalls ++ [Call.mergeAll]) =
        Registry.after {} (petParts.map addCall ++ [Call.mergeAll]) := by
  have hlt : Text.rank "pet.yaml" < Text.rank "tag.yaml" := by decide
  have hincreasing : OriginsIncrease petParts := by simpa [OriginsIncrease, petParts] using hlt
  have hpresent : ∀ p ∈ petParts, p.module.origin ≠ "" := by simp [petParts]
  have hbatch : Registry.AllSucceed {} (petParts.map addCall ++ [Call.mergeAll]) :=
    ⟨rfl, rfl, rfl, mergeAll_petParts, trivial⟩
  have hcalls : Interleaves eagerCalls petParts := rfl
  obtain ⟨-, hsame, -⟩ :=
    interleaved_eq_batch petParts eagerCalls hincreasing hpresent hbatch hcalls
  exact ⟨hincreasing, hpresent, hbatch, hcalls, hsame⟩

end Pipeline
end ClientLoom
