import Mathlib.Data.List.Forall2
import ClientLoom.Proofs.Dump.FirstFault
import ClientLoom.Proofs.Load.Agreement
import ClientLoom.Proofs.Load.Workers

/-! # Any schedule gives the same parts

Whatever the workers do in which order, what is in the slots, in the hands of the workers and with
the supervisor fits the sources (`Crew.Sound.run`).  When all workers have returned, the slots hold
the parts of all sources, each in its place, or the failure of a source was kept, never that of the
cancelled work (`any_schedule`).  They all return unless decoding one of the sources does not come
back.  With a single worker the outcome is that of decoding in order, failures included
(`Crew.Serial.outcome_eq`). -/

namespace ClientLoom.Load

namespace Crew

variable {v : Supervisor} {limit : ℕ} {sources : List Source} {c c' : Crew v} {i j : ℕ}
  {source : Source} {stage : Stage} {ms : List Move}

/-! ### What workers know -/

/-- The slot of a worker is filled. -/
def Filled (c : Crew v) (i : ℕ) : Prop := ∃ part, c.slots[i]? = some (some part)

/-- What holds of a worker at its stage: a text is that of its source, a failure is that of its
source unless another one was kept before, a worker that returns without a failure has filled its
slot, and one that does not come back is trapped by its source. -/
def Allows (c : Crew v) (i : ℕ) (source : Source) : Stage → Prop
  | .started => True
  | .going => True
  | .read text => source.content = .ok text
  | .returning none => c.Filled i
  | .returning (some f) => source.Fails f ∨ (v.kept c.state).isSome
  | .returned => c.Filled i ∨ (v.kept c.state).isSome
  | .trapped => source.Traps

/-- What a crew has done so far fits its sources. -/
structure Sound (sources : List Source) (c : Crew v) : Prop where
  length_stages_le : c.stages.length ≤ sources.length
  length_slots : c.slots.length = sources.length
  /-- a part in a slot comes from the source in the same place -/
  decode_eq_ok : ∀ (i : ℕ) (source : Source) (part : Part), sources[i]? = some source →
    c.slots[i]? = some (some part) → source.decode = .ok part
  allows : ∀ (i : ℕ) (source : Source) (stage : Stage), sources[i]? = some source →
    c.stages[i]? = some stage → c.Allows i source stage
  /-- a failure that is kept comes from one of the sources -/
  fails : ∀ f, v.kept c.state = some f → ∃ source ∈ sources, source.Fails f

theorem Allows.mono (h : c.Allows i source stage) (hfilled : c.Filled i → c'.Filled i)
    (hkept : (v.kept c.state).isSome → (v.kept c'.state).isSome) : c'.Allows i source stage := by
  cases stage with
  | started => trivial
  | going => trivial
  | read text => exact h
  | returning r =>
      cases r with
      | none => exact hfilled h
      | some f => exact h.imp_right hkept
  | returned => exact h.imp hfilled hkept
  | trapped => exact h

theorem sound_fresh (hv : v.Lawful) (sources : List Source) : (fresh v sources).Sound sources where
  length_stages_le := Nat.zero_le _
  length_slots := List.length_replicate
  decode_eq_ok := by
    intro i source part _ hslot
    cases List.eq_of_mem_replicate (List.mem_of_getElem? hslot)
  allows := by
    intro i source stage _ hstage
    cases hstage
  fails := by
    intro f hf
    have hnone : v.kept (fresh v sources).state = none := hv.kept_fresh
    rw [hnone] at hf
    cases hf

/-- The loader starts a worker. -/
theorem Sound.start (h : c.Sound sources) (hlength : c.stages.length < sources.length) :
    ({ c with stages := c.stages ++ [.started] } : Crew v).Sound sources where
  length_stages_le := by
    rw [List.length_append, List.length_singleton]
    exact hlength
  length_slots := h.length_slots
  decode_eq_ok := h.decode_eq_ok
  allows := by
    intro i source stage hsource hstage
    rw [List.getElem?_append] at hstage
    split at hstage
    · exact h.allows i source stage hsource hstage
    · obtain rfl := List.mem_singleton.mp (List.mem_of_getElem? hstage)
      trivial
  fails := h.fails

theorem Sound.enter (h : c.Sound sources) (hsource : sources[i]? = some source)
    (hallows : c.Allows i source stage) : (c.enter i stage).Sound sources where
  length_stages_le := by simpa [Crew.enter] using h.length_stages_le
  length_slots := h.length_slots
  decode_eq_ok := h.decode_eq_ok
  allows := by
    intro j source' stage' hsource' hstage'
    rw [Crew.enter, List.getElem?_set] at hstage'
    split at hstage'
    · next heq =>
        subst heq
        obtain rfl := Option.some.inj (hsource.symm.trans hsource')
        rw [Option.ite_none_right_eq_some] at hstage'
        exact Option.some.inj hstage'.2 ▸ hallows
    · exact h.allows j source' stage' hsource' hstage'
  fails := h.fails

theorem Filled.fill {part : Part} (h : c.Filled j) (hi : i < c.slots.length) :
    (c.fill i part).Filled j := by
  unfold Filled Crew.fill
  rw [List.getElem?_set]
  split
  · exact ⟨part, rfl⟩
  · exact h

/-- A worker fills the slot of its source. -/
theorem Sound.fill {part : Part} (h : c.Sound sources) (hsource : sources[i]? = some source)
    (hpart : source.decode = .ok part) : (c.fill i part).Sound sources where
  length_stages_le := h.length_stages_le
  length_slots := by simpa [Crew.fill] using h.length_slots
  decode_eq_ok := by
    intro j source' part' hsource' hslot
    rw [Crew.fill, List.getElem?_set] at hslot
    split at hslot
    · next heq =>
        subst heq
        obtain rfl := Option.some.inj (hsource.symm.trans hsource')
        rw [Option.ite_none_right_eq_some] at hslot
        obtain rfl := Option.some.inj (Option.some.inj hslot.2)
        exact hpart
    · exact h.decode_eq_ok j source' part' hsource' hslot
  allows := by
    intro j source' stage hsource' hstage
    have hi : i < c.slots.length := h.length_slots ▸ (List.getElem?_eq_some_iff.mp hsource).1
    exact (h.allows j source' stage hsource' hstage).mono (fun hj => hj.fill hi) id
  fails := h.fails

/-- The supervisor takes in a result; a failure comes from a source unless another was kept. -/
theorem Sound.report (hv : v.Lawful) {r : Option Failure} (h : c.Sound sources)
    (hr : ∀ f, r = some f → v.kept c.state = none → ∃ source ∈ sources, source.Fails f) :
    (c.report r).Sound sources where
  length_stages_le := h.length_stages_le
  length_slots := h.length_slots
  decode_eq_ok := h.decode_eq_ok
  allows := by
    intro j source stage hsource hstage
    refine (h.allows j source stage hsource hstage).mono id fun hkept => ?_
    rw [Crew.report, hv.kept_report, Option.isSome_or, hkept, Bool.true_or]
  fails := by
    intro f hf
    rw [Crew.report, hv.kept_report, Option.or_eq_some_iff] at hf
    obtain hf | ⟨hnone, hf⟩ := hf
    · exact h.fails f hf
    · exact hr f hf hnone

theorem fails_of_misread {f : Failure}
    (h : locate ("read " ++ source.name) source.content = .error f) : source.Fails f := by
  refine ⟨by rw [Source.decode, h]; rfl, ?_⟩
  rintro ⟨text, -, htext, -, -⟩
  rw [htext] at h
  cases h

theorem decode_of_read {text : String} (h : source.content = .ok text) :
    source.decode = (Dump.decode source.name text).map fun m => ⟨source.group, m⟩ := by
  rw [Source.decode, locate_eq_ok_iff.mpr h]
  show (Dump.decode source.name text >>= fun m => (pure ⟨source.group, m⟩ : Except _ Part)) = _
  cases Dump.decode source.name text <;> rfl

theorem fails_of_misdecode {text : String} {f : Failure} (htext : source.content = .ok text)
    (h : Dump.decode source.name text = .error f) (hfatal : fatal f.cause = false) :
    source.Fails f := by
  constructor
  · rw [decode_of_read htext, h]
    rfl
  · rintro ⟨text', g, htext', hg, hfatal'⟩
    obtain rfl := Except.ok.inj (htext.symm.trans htext')
    obtain rfl := Except.error.inj (h.symm.trans hg)
    exact absurd hfatal' (Bool.eq_false_iff.mp hfatal)

/-- Every move keeps a crew sound. -/
theorem Sound.step (hv : v.Lawful) (h : c.Sound sources) (hstep : Steps limit sources c c') :
    c'.Sound sources := by
  have hsource {i : ℕ} {stage : Stage} (hstage : c.stages[i]? = some stage) :
      ∃ source, sources[i]? = some source :=
    ⟨_, List.getElem?_eq_getElem
      (Nat.lt_of_lt_of_le (List.getElem?_eq_some_iff.mp hstage).1 h.length_stages_le)⟩
  cases hstep with
  | starts hlength _ => exact h.start hlength
  | stops hstage hshows =>
      obtain ⟨source, hsource⟩ := hsource hstage
      exact h.enter hsource (.inr (hv.kept_of_shows c.state hshows))
  | goes hstage =>
      obtain ⟨source, hsource⟩ := hsource hstage
      exact h.enter hsource trivial
  | reads hsource _ htext => exact h.enter hsource htext
  | misreads hsource _ hread => exact h.enter hsource (.inl (fails_of_misread hread))
  | @decodes i source text m hsource hstage hdecode =>
      have hread := decode_of_read (h.allows _ _ _ hsource hstage)
      rw [hdecode] at hread
      have hfill := h.fill hsource hread
      have hfilled : (c.fill i ⟨source.group, m⟩).Filled i := by
        refine ⟨⟨source.group, m⟩, List.getElem?_set_self ?_⟩
        rw [h.length_slots]
        exact (List.getElem?_eq_some_iff.mp hsource).1
      exact hfill.enter hsource hfilled
  | @misdecodes i source text f hsource hstage hdecode hfatal =>
      have htext : source.content = .ok text := h.allows _ _ _ hsource hstage
      exact h.enter hsource (.inl (fails_of_misdecode htext hdecode hfatal))
  | @traps i source text f hsource hstage hdecode hfatal =>
      have htext : source.content = .ok text := h.allows _ _ _ hsource hstage
      exact h.enter hsource ⟨text, f, htext, hdecode, hfatal⟩
  | @returns i r hstage =>
      obtain ⟨source, hsource⟩ := hsource hstage
      have hallows := h.allows i source _ hsource hstage
      have hreport : (c.report r).Sound sources := by
        refine h.report hv ?_
        rintro f rfl hnone
        have hown := hallows.resolve_right (by simp [hnone])
        exact ⟨source, List.mem_of_getElem? hsource, hown⟩
      refine hreport.enter hsource ?_
      cases r with
      | none => exact .inl hallows
      | some f => exact .inr (by simp [Crew.report, hv.kept_report])

theorem Sound.run (hv : v.Lawful) (h : c.Sound sources)
    (hrun : c.run? limit sources ms = some c') : c'.Sound sources := by
  induction ms generalizing c with
  | nil => exact Option.some.inj hrun ▸ h
  | cons m ms ih =>
      obtain ⟨c₁, hstep, hrun⟩ := Option.bind_eq_some_iff.mp hrun
      exact ih (h.step hv (steps_of_step? hstep)) hrun

/-! ### The end -/

theorem exists_parts_of_slots {slots : List (Option Part)} (hlength : slots.length = sources.length)
    (h : ∀ (i : ℕ) (source : Source), sources[i]? = some source →
      ∃ part, slots[i]? = some (some part) ∧ source.decode = .ok part) :
    ∃ parts : List Part, slots = parts.map some ∧ sources.mapM Source.decode = .ok parts := by
  induction sources generalizing slots with
  | nil => exact ⟨[], List.length_eq_zero_iff.mp hlength, rfl⟩
  | cons source sources ih =>
      obtain ⟨slot, slots, rfl⟩ := List.exists_cons_of_length_eq_add_one hlength
      obtain ⟨part, hslot, hpart⟩ := h 0 source rfl
      obtain rfl : slot = some part := Option.some.inj hslot
      have hrest : ∀ (i : ℕ) (source : Source), sources[i]? = some source →
          ∃ part, slots[i]? = some (some part) ∧ source.decode = .ok part :=
        fun i source hsource => by simpa using h (i + 1) source (by simpa using hsource)
      obtain ⟨parts, rfl, hparts⟩ := ih (Nat.succ.inj hlength) hrest
      refine ⟨part :: parts, rfl, ?_⟩
      rw [mapM_eq_ok_iff] at hparts ⊢
      exact .cons hpart hparts

/-- When every worker has returned and no failure was kept, the slots hold the parts of all
sources. -/
theorem Sound.exists_parts (h : c.Sound sources) (hfinished : c.Finished sources)
    (hkept : v.kept c.state = none) :
    ∃ parts : List Part, c.slots = parts.map some ∧ sources.mapM Source.decode = .ok parts := by
  refine exists_parts_of_slots h.length_slots fun i source hsource => ?_
  have hbound : i < c.stages.length :=
    hfinished.1 ▸ (List.getElem?_eq_some_iff.mp hsource).1
  have hstage : c.stages[i]? = some .returned := by
    rw [List.getElem?_eq_getElem hbound, hfinished.2 _ (List.getElem_mem hbound)]
  have hallows := h.allows i source .returned hsource hstage
  obtain ⟨part, hpart⟩ := hallows.resolve_right (by simp [hkept])
  exact ⟨part, hpart, h.decode_eq_ok i source part hsource hpart⟩

theorem Sound.outcome_eq_ok (h : c.Sound sources) (hfinished : c.Finished sources)
    {slots : List (Option Part)} (hslots : c.outcome = .ok slots) :
    ∃ parts : List Part, slots = parts.map some ∧ sources.mapM Source.decode = .ok parts := by
  unfold outcome at hslots
  split at hslots
  · next hkept => exact Except.ok.inj hslots ▸ h.exists_parts hfinished hkept
  · cases hslots

theorem Sound.outcome_eq_error (h : c.Sound sources) {f : Failure} (hf : c.outcome = .error f) :
    ∃ source ∈ sources, source.Fails f := by
  unfold outcome at hf
  split at hf
  · cases hf
  · next hkept => exact h.fails f (Except.error.inj hf ▸ hkept)

/-- A worker is trapped only by its source. -/
theorem Sound.exists_traps (h : c.Sound sources) (htrapped : .trapped ∈ c.stages) :
    ∃ source ∈ sources, source.Traps := by
  obtain ⟨i, hi⟩ := List.mem_iff_getElem?.mp htrapped
  have hbound : i < sources.length :=
    Nat.lt_of_lt_of_le (List.getElem?_eq_some_iff.mp hi).1 h.length_stages_le
  exact ⟨sources[i], List.getElem_mem hbound,
    h.allows i sources[i] .trapped (List.getElem?_eq_getElem hbound) hi⟩

/-! ### One at a time -/

/-- Only the last worker is at work, and what is kept is the first failure of the sources before
its own. -/
structure Serial (sources : List Source) (c : Crew v) (k : ℕ) : Prop where
  stages_eq : c.stages = List.replicate k .returned ∨
    ∃ stage, stage ≠ .returned ∧ c.stages = List.replicate k .returned ++ [stage]
  kept_eq : ∀ f, v.kept c.state = some f ↔ (sources.take k).mapM Source.decode = .error f

variable {k : ℕ}

theorem Serial.eq_of_ne_returned (h : c.Serial sources k) (hstage : c.stages[i]? = some stage)
    (hne : stage ≠ .returned) : i = k ∧ c.stages = List.replicate k .returned ++ [stage] := by
  obtain hstages | ⟨last, -, hstages⟩ := h.stages_eq
  · rw [hstages] at hstage
    exact absurd (List.eq_of_mem_replicate (List.mem_of_getElem? hstage)) hne
  · rw [hstages, List.getElem?_append] at hstage
    split at hstage
    · exact absurd (List.eq_of_mem_replicate (List.mem_of_getElem? hstage)) hne
    · next hi =>
        obtain ⟨hlt, hlast⟩ := List.getElem?_eq_some_iff.mp hstage
        rw [List.length_replicate] at hi
        rw [List.length_replicate, List.length_singleton] at hlt
        rw [List.getElem_singleton] at hlast
        exact ⟨by omega, hlast ▸ hstages⟩

theorem mapM_append_singleton_eq_error_iff {ε α β : Type} {g : α → Except ε β} {xs : List α} {x : α}
    {e : ε} : (xs ++ [x]).mapM g = .error e ↔
      xs.mapM g = .error e ∨ (∃ ys, xs.mapM g = .ok ys) ∧ g x = .error e := by
  rw [List.mapM_append]
  cases hxs : xs.mapM g with
  | error e' =>
      show Except.error e' = .error e ↔ _
      simp
  | ok ys =>
      rw [List.mapM_cons, List.mapM_nil]
      cases hx : g x with
      | error e' =>
          show Except.error e' = .error e ↔ _
          simp
      | ok y =>
          show Except.ok _ = .error e ↔ _
          simp

/-- When the worker of the next source returns, the first failure up to that source is kept. -/
theorem Serial.kept_report (hv : v.Lawful) (hserial : c.Serial sources k) (h : c.Sound sources)
    {r : Option Failure} (hsource : sources[k]? = some source)
    (hstage : c.stages[k]? = some (.returning r)) (f : Failure) :
    v.kept (v.report c.state r) = some f ↔
      (sources.take (k + 1)).mapM Source.decode = .error f := by
  rw [hv.kept_report, List.take_add_one, hsource, Option.toList_some,
    mapM_append_singleton_eq_error_iff, ← hserial.kept_eq, Option.or_eq_some_iff]
  refine or_congr_right ?_
  have hallows := h.allows k source _ hsource hstage
  have hnone : v.kept c.state = none ↔
      ∃ parts, (sources.take k).mapM Source.decode = .ok parts := by
    rw [Option.eq_none_iff_forall_ne_some]
    simp only [ne_eq, hserial.kept_eq]
    cases (sources.take k).mapM Source.decode with
    | error f => simp
    | ok parts => simp
  rw [← hnone]
  refine and_congr_right fun hkept => ?_
  cases r with
  | none =>
      obtain ⟨part, hpart⟩ := hallows
      rw [h.decode_eq_ok k source part hsource hpart]
      simp
  | some f' =>
      have hown : source.Fails f' := hallows.resolve_right (by simp [hkept])
      rw [hown.1]
      simp

theorem serial_fresh (hv : v.Lawful) (sources : List Source) :
    (fresh v sources).Serial sources 0 where
  stages_eq := .inl rfl
  kept_eq := by
    intro f
    have hnone : v.kept (fresh v sources).state = none := hv.kept_fresh
    rw [hnone, List.take_zero]
    exact ⟨fun h => (nomatch h), fun h => (nomatch h)⟩

/-- With a limit of one, every move leaves no more than the last worker at work. -/
theorem Serial.step (hv : v.Lawful) (hlimit : limit ≤ 1) (hserial : c.Serial sources k)
    (h : c.Sound sources) (hstep : Steps limit sources c c') : ∃ k, c'.Serial sources k := by
  obtain ⟨-, hbusy, rfl⟩ | ⟨i, stage, stage', hstage, hne', hleft, hstages, hstate⟩ |
    ⟨i, r, hstage, rfl⟩ := hstep.stages_cases
  · -- a worker is started only when nobody is at work
    refine ⟨k, .inr ⟨.started, by simp, ?_⟩, hserial.kept_eq⟩
    obtain hstages | ⟨last, hlast, hstages⟩ := hserial.stages_eq
    · rw [hstages]
    · have hpos : 0 < c.busy :=
        List.countP_pos_iff.mpr ⟨last, by simp [hstages], by simpa using hlast⟩
      omega
  · have hne : stage ≠ .returned := by
      rintro rfl
      exact absurd hleft (Nat.not_lt_zero _)
    obtain ⟨rfl, hreplicate⟩ := hserial.eq_of_ne_returned hstage hne
    refine ⟨i, .inr ⟨stage', hne', ?_⟩, hstate ▸ hserial.kept_eq⟩
    rw [hstages, hreplicate]
    simp
  · obtain ⟨rfl, hreplicate⟩ := hserial.eq_of_ne_returned hstage (by simp)
    obtain ⟨hbound, -⟩ := List.getElem?_eq_some_iff.mp hstage
    have hsource := List.getElem?_eq_getElem (Nat.lt_of_lt_of_le hbound h.length_stages_le)
    refine ⟨i + 1, .inl ?_, hserial.kept_report hv h hsource hstage⟩
    rw [List.replicate_succ']
    simp [Crew.enter, Crew.report, hreplicate]

theorem Serial.run (hv : v.Lawful) (hlimit : limit ≤ 1) (hserial : c.Serial sources k)
    (h : c.Sound sources) (hrun : c.run? limit sources ms = some c') :
    ∃ k, c'.Serial sources k := by
  induction ms generalizing c k with
  | nil => exact ⟨k, Option.some.inj hrun ▸ hserial⟩
  | cons m ms ih =>
      obtain ⟨c₁, hstep, hrun⟩ := Option.bind_eq_some_iff.mp hrun
      obtain ⟨k₁, hserial₁⟩ := hserial.step hv hlimit h (steps_of_step? hstep)
      exact ih hserial₁ (h.step hv (steps_of_step? hstep)) hrun

/-- A single worker gives what decoding in order gives, the failure included. -/
theorem Serial.outcome_eq (hserial : c.Serial sources k) (h : c.Sound sources)
    (hfinished : c.Finished sources) :
    c.outcome = (sources.mapM Source.decode).map fun parts => parts.map some := by
  have hall : k = sources.length := by
    obtain hstages | ⟨last, hlast, hstages⟩ := hserial.stages_eq
    · rw [← hfinished.1, hstages, List.length_replicate]
    · exact absurd (hfinished.2 last (by simp [hstages])) hlast
  have hkept := hserial.kept_eq
  rw [hall, List.take_length] at hkept
  cases houtcome : c.outcome with
  | ok slots =>
      obtain ⟨parts, rfl, hparts⟩ := h.outcome_eq_ok hfinished houtcome
      rw [hparts]
      rfl
  | error f =>
      unfold outcome at houtcome
      split at houtcome
      · cases houtcome
      · next f' hf =>
          rw [(hkept f').mp hf, ← houtcome]
          rfl

end Crew

/-! ### Every schedule -/

theorem within_ne_cancelled (place : String) (f : Failure) :
    f.within place ≠ .of .cancelled := by
  unfold Failure.within
  split
  · next hcause =>
      rintro rfl
      cases hcause
  · exact fun h => List.cons_ne_nil _ _ (congrArg Failure.trail h)

theorem cause_ne_cancelled {name text : String} {f : Failure}
    (h : Dump.decode name text = .error f) : f.cause ≠ .cancelled := by
  intro hcause
  unfold Dump.decode at h
  split at h
  · have hfault := Dump.fault_of_decodeDocument h (by simp [hcause])
    rw [hcause] at hfault
    cases hfault
  · obtain rfl := Except.error.inj h
    cases hcause

/-- No source fails with the failure of the cancelled work. -/
theorem Source.decode_ne_cancelled {source : Source} {f : Failure}
    (h : source.decode = .error f) : f ≠ .of .cancelled := by
  cases hcontent : source.content with
  | error g =>
      rw [Source.decode, hcontent] at h
      obtain rfl : g.within ("read " ++ source.name) = f := Except.error.inj h
      exact within_ne_cancelled _ g
  | ok text =>
      rw [Crew.decode_of_read hcontent] at h
      cases hdecode : Dump.decode source.name text with
      | error g =>
          rw [hdecode] at h
          obtain rfl : g = f := Except.error.inj h
          rintro rfl
          exact cause_ne_cancelled hdecode rfl
      | ok m =>
          rw [hdecode] at h
          cases h

theorem result_decodeAll (sources : List Source) :
    (decodeAll false sources).result = sources.mapM Source.decode := by
  cases hparts : sources.mapM Source.decode with
  | ok parts => exact result_decodeAll_eq_ok_iff.mpr ⟨.inr rfl, hparts⟩
  | error f =>
      unfold decodeAll
      split
      · next hnil =>
          rw [List.isEmpty_iff.mp hnil] at hparts
          cases hparts
      · simp only [Bool.false_eq_true, if_false, Logged.result_bind, hparts]
        rfl

theorem decode_eq_ok_iff {source : Source} {part : Part} : source.decode = .ok part ↔
    ∃ text m, source.content = .ok text ∧ Dump.decode source.name text = .ok m ∧
      part = ⟨source.group, m⟩ := by
  simp only [Source.decode, bind_eq_ok_iff, locate_eq_ok_iff]
  constructor
  · rintro ⟨text, htext, m, hm, hpart⟩
    exact ⟨text, m, htext, hm, (Except.ok.inj hpart).symm⟩
  · rintro ⟨text, m, htext, hm, rfl⟩
    exact ⟨text, htext, m, hm, rfl⟩

/-- However many workers there are and whatever they do in which order, the schedule ends, and no
worker waits forever, unless one is trapped, which only a source does whose decoding does not come
back.  When all workers have returned, the parts of all sources are there, each in its place,
exactly when every source can be decoded.  Otherwise the failure is that of a source that comes back
with it, never that of the cancelled work; it is the one of decoding in order when no two workers
are at work at a time. -/
theorem any_schedule {v : Supervisor} (hv : v.Lawful) {processors : ℕ}
    (hprocessors : 0 < processors) (jobs : Int) (sources : List Source) {moves : List Move}
    {c : Crew v}
    (hrun : (Crew.fresh v sources).run? (workerLimit processors jobs sources) sources moves =
      some c) :
    moves.length ≤ 5 * sources.length ∧
      (¬ c.Finished sources →
        (∃ m, (c.step? (workerLimit processors jobs sources) sources m).isSome) ∨
          .trapped ∈ c.stages) ∧
      (.trapped ∈ c.stages → ∃ source ∈ sources, source.Traps) ∧
      (c.Finished sources →
        ((∃ slots, c.outcome = .ok slots) ↔
            ∀ source ∈ sources, ∃ part, source.decode = .ok part) ∧
          (∀ slots, c.outcome = .ok slots → ∃ parts : List Part, slots = parts.map some ∧
            (decodeAll false sources).result = .ok parts ∧
            List.Forall₂ (fun source part => ∃ text m, source.content = .ok text ∧
              Dump.decode source.name text = .ok m ∧ part = ⟨source.group, m⟩) sources parts) ∧
          (∀ f, c.outcome = .error f →
            f ≠ .of .cancelled ∧ ∃ source ∈ sources, source.Fails f) ∧
          (workerLimit processors jobs sources ≤ 1 →
            c.outcome = (decodeAll false sources).result.map fun parts => parts.map some)) := by
  have hsound := (Crew.sound_fresh hv sources).run hv hrun
  refine ⟨?_, fun hunfinished => ?_, hsound.exists_traps, fun hfinished =>
    ⟨⟨?_, fun hall => ?_⟩, ?_, ?_, ?_⟩⟩
  · have hlength := Crew.length_add_left_le hrun
    rw [Crew.left_fresh] at hlength
    omega
  · exact Crew.exists_move_or_trapped hv hsound.length_stages_le
      (workerLimit_pos hprocessors jobs) hunfinished
  · rintro ⟨slots, hslots⟩
    obtain ⟨parts, -, hparts⟩ := hsound.outcome_eq_ok hfinished hslots
    exact exists_mapM_eq_ok_iff.mp ⟨parts, hparts⟩
  · cases houtcome : c.outcome with
    | ok slots => exact ⟨slots, rfl⟩
    | error f =>
        obtain ⟨source, hsource, hf⟩ := hsound.outcome_eq_error houtcome
        obtain ⟨part, hpart⟩ := hall source hsource
        cases hf.1.symm.trans hpart
  · intro slots hslots
    obtain ⟨parts, hparts, hdecoded⟩ := hsound.outcome_eq_ok hfinished hslots
    refine ⟨parts, hparts, (result_decodeAll sources).trans hdecoded, ?_⟩
    exact (mapM_eq_ok_iff.mp hdecoded).imp fun _ _ => decode_eq_ok_iff.mp
  · intro f hf
    obtain ⟨source, hsource, hfails⟩ := hsound.outcome_eq_error hf
    exact ⟨Source.decode_ne_cancelled hfails.1, source, hsource, hfails⟩
  · intro hlimit
    obtain ⟨k, hserial⟩ :=
      (Crew.serial_fresh hv sources).run hv hlimit (Crew.sound_fresh hv sources) hrun
    rw [result_decodeAll]
    exact hserial.outcome_eq hsound hfinished

/-- A supervisor that keeps the first failure and may be slow to show that the work is
cancelled. -/
def firstKept : Supervisor where
  State := Option Failure
  fresh := none
  report g r := g.or r
  kept g := g
  shows g seen := !seen || g.isSome

theorem lawful_firstKept : firstKept.Lawful where
  kept_fresh := rfl
  kept_report _ _ := rfl
  kept_of_shows _ h := h
  answers _ := ⟨false, rfl⟩

/-- A dump and two files that cannot be read. -/
def threeSources : List Source :=
  [⟨"models", "models/a.yaml", .ok "decls: []"⟩,
    ⟨"models", "models/b.yaml", .error (.of (.system "permission denied"))⟩,
    ⟨"models", "models/c.yaml", .error (.of (.system "permission denied"))⟩]

/-- Two workers at a time; the one for the last source overtakes the one before it. -/
def overtaking : List Move :=
  [.start, .start, .look 0 false, .work 0, .work 0, .work 0, .start, .look 2 false, .work 2,
    .work 2, .look 1 true, .work 1]

theorem any_schedule_overtaking :
    ∃ c : Crew firstKept,
      (Crew.fresh firstKept threeSources).run? (workerLimit 4 2 threeSources) threeSources
        overtaking = some c ∧
      c.Finished threeSources ∧
      c.outcome = .error (.along ["read models/c.yaml"] (.system "permission denied")) ∧
      ∃ source ∈ threeSources,
        source.Fails (.along ["read models/c.yaml"] (.system "permission denied")) := by
  have hend : ((Crew.fresh firstKept threeSources).run? (workerLimit 4 2 threeSources) threeSources
      overtaking).map (fun c => (c.stages, firstKept.kept c.state)) =
      some ([.returned, .returned, .returned],
        some (.along ["read models/c.yaml"] (.system "permission denied"))) := by
    decide +kernel
  obtain ⟨c, hrun, hc⟩ := Option.map_eq_some_iff.mp hend
  obtain ⟨hstages, hkept⟩ := Prod.mk.inj hc
  have hfinished : c.Finished threeSources := by
    unfold Crew.Finished
    rw [hstages]
    decide
  have houtcome : c.outcome =
      .error (.along ["read models/c.yaml"] (.system "permission denied")) := by
    unfold Crew.outcome
    rw [hkept]
  obtain ⟨-, -, -, hright⟩ := any_schedule lawful_firstKept (by decide) 2 threeSources hrun
  exact ⟨c, hrun, hfinished, houtcome, ((hright hfinished).2.2.1 _ houtcome).2⟩

end ClientLoom.Load
