import Mathlib.Algebra.Ring.Nat
import Mathlib.Tactic.Push
import ClientLoom.Load
import ClientLoom.Proofs.Outcome

/-! # Workers

Sources may be decoded by several workers at a time.  The loader starts a worker for each source, in
order and only while fewer than a given number are at work.  A worker looks whether the work was
cancelled, reads, decodes, puts the part into the slot of its source and returns, possibly with a
failure.  What is returned goes to a supervisor, which keeps a failure and lets workers see that the
work is cancelled.  A `Move` of one of them changes the `Crew`; a schedule is a list of moves.

Not every worker comes back: decoding may go on for ever or break the program down
(`Source.Traps`), and then the crew never finishes (`not_finished_of_trapped`).

`Crew.Steps` lists all that a move can be.  Every move takes one of the moves that are left, so that
no schedule is endless (`length_add_left_le`), and as long as not all workers have returned some
move can be made, or a worker is trapped (`exists_move_or_trapped`). -/

namespace ClientLoom.Load

/-! ### Supervisors -/

/-- What takes in the results of workers. -/
structure Supervisor where
  State : Type
  fresh : State
  /-- a worker returns, with a failure or without -/
  report : State → Option Failure → State
  /-- the failure that is found in the end -/
  kept : State → Option Failure
  /-- whether a worker that looks may see the work cancelled (`true`) or going on (`false`) -/
  shows : State → Bool → Bool

/-- The first failure that is reported is kept, and the work is cancelled only after that. -/
structure Supervisor.Lawful (v : Supervisor) : Prop where
  kept_fresh : v.kept v.fresh = none
  kept_report : ∀ g r, v.kept (v.report g r) = (v.kept g).or r
  kept_of_shows : ∀ g, v.shows g true = true → (v.kept g).isSome
  answers : ∀ g, ∃ seen, v.shows g seen = true

/-- The number of workers that may be at work: the number of processors when none is asked for,
and no more than there are sources. -/
def workerLimit (processors : ℕ) (jobs : Int) (sources : List Source) : ℕ :=
  min (if jobs ≤ 0 then processors else jobs.toNat) sources.length

theorem workerLimit_pos {processors : ℕ} (hprocessors : 0 < processors) (jobs : Int)
    {sources : List Source} (hsources : sources ≠ []) :
    0 < workerLimit processors jobs sources := by
  have hlength := List.length_pos_iff.mpr hsources
  unfold workerLimit
  split <;> omega

/-! ### Sources that trap a worker -/

/-- Whether a cause is one that no computation comes back with: it goes on for ever, or it breaks
the program down. -/
def fatal : Cause → Bool
  | .endless => true
  | .breakdown _ => true
  | _ => false

/-- The source can be read, and decoding it does not come back. -/
def Source.Traps (source : Source) : Prop :=
  ∃ text f, source.content = .ok text ∧ Dump.decode source.name text = .error f ∧
    fatal f.cause = true

/-- The source fails in reading or decoding, and the failure comes back. -/
def Source.Fails (source : Source) (f : Failure) : Prop :=
  source.decode = .error f ∧ ¬ source.Traps

/-! ### Moves -/

/-- Where the worker for a source stands. -/
inductive Stage where
  /-- about to look whether the work was cancelled -/
  | started
  /-- about to read -/
  | going
  /-- has read a text and is about to decode it -/
  | read (text : String)
  /-- about to return, with a failure or without -/
  | returning (failure : Option Failure)
  /-- has returned -/
  | returned
  /-- does not come back from decoding -/
  | trapped
  deriving DecidableEq

/-- The number of moves that a worker makes from a stage on. -/
@[simp] def Stage.left : Stage → ℕ
  | .started => 4
  | .going => 3
  | .read _ => 2
  | .returning _ => 1
  | .returned => 0
  | .trapped => 0

/-- The workers started so far, one for each source from the first on, and what they share. -/
structure Crew (v : Supervisor) where
  stages : List Stage
  /-- a place for the part of each source -/
  slots : List (Option Part)
  state : v.State

/-- A move of the loader or of a worker. -/
inductive Move where
  /-- the loader starts the next worker -/
  | start
  /-- a worker looks, and sees whether the work was cancelled -/
  | look (i : ℕ) (seen : Bool)
  /-- a worker does the next thing -/
  | work (i : ℕ)

namespace Crew

variable {v : Supervisor}

/-- Before the first worker is started. -/
def fresh (v : Supervisor) (sources : List Source) : Crew v :=
  ⟨[], List.replicate sources.length none, v.fresh⟩

/-- The number of workers that have not returned. -/
def busy (c : Crew v) : ℕ := c.stages.countP (· ≠ .returned)

/-- A worker goes on to another stage. -/
def enter (c : Crew v) (i : ℕ) (stage : Stage) : Crew v :=
  { c with stages := c.stages.set i stage }

/-- A worker puts a part into a slot. -/
def fill (c : Crew v) (i : ℕ) (part : Part) : Crew v :=
  { c with slots := c.slots.set i (some part) }

/-- A worker returns. -/
def report (c : Crew v) (r : Option Failure) : Crew v :=
  { c with state := v.report c.state r }

/-- The move of a worker that does not have to look first. -/
def work (c : Crew v) (i : ℕ) (source : Source) : Stage → Option (Crew v)
  | .started => none
  | .going =>
      match locate ("read " ++ source.name) source.content with
      | .ok text => some (c.enter i (.read text))
      | .error f => some (c.enter i (.returning (some f)))
  | .read text =>
      match Dump.decode source.name text with
      | .ok m => some ((c.enter i (.returning none)).fill i ⟨source.group, m⟩)
      | .error f => some (c.enter i (if fatal f.cause then .trapped else .returning (some f)))
  | .returning r => some ((c.enter i .returned).report r)
  | .returned => none
  | .trapped => none

/-- The crew after a move, when that can be made. -/
def step? (limit : ℕ) (sources : List Source) (c : Crew v) : Move → Option (Crew v)
  | .start =>
      if c.stages.length < sources.length ∧ c.busy < limit then
        some { c with stages := c.stages ++ [.started] }
      else none
  | .look i seen =>
      if c.stages[i]? = some .started ∧ v.shows c.state seen = true then
        some (c.enter i (if seen then .returning (some (.of .cancelled)) else .going))
      else none
  | .work i =>
      match sources[i]?, c.stages[i]? with
      | some source, some stage => c.work i source stage
      | _, _ => none

/-- The crew after a schedule, when all its moves can be made. -/
def run? (limit : ℕ) (sources : List Source) (c : Crew v) : List Move → Option (Crew v)
  | [] => some c
  | m :: ms => (c.step? limit sources m).bind fun c' => c'.run? limit sources ms

/-- Every worker was started and has returned. -/
def Finished (sources : List Source) (c : Crew v) : Prop :=
  c.stages.length = sources.length ∧ ∀ stage ∈ c.stages, stage = .returned

/-- What the loader gives in the end: the slots, or the failure that was kept. -/
def outcome (c : Crew v) : Except Failure (List (Option Part)) :=
  match v.kept c.state with
  | none => .ok c.slots
  | some f => .error f

/-! ### One move -/

variable {limit : ℕ} {sources : List Source} {c c' : Crew v} {i j : ℕ} {source : Source}
  {stage stage' : Stage} {m : Move} {ms : List Move}

/-- All that a move can be. -/
inductive Steps (limit : ℕ) (sources : List Source) (c : Crew v) : Crew v → Prop where
  | starts : c.stages.length < sources.length → c.busy < limit →
      Steps limit sources c { c with stages := c.stages ++ [.started] }
  | stops {i : ℕ} : c.stages[i]? = some .started → v.shows c.state true = true →
      Steps limit sources c (c.enter i (.returning (some (.of .cancelled))))
  | goes {i : ℕ} : c.stages[i]? = some .started → Steps limit sources c (c.enter i .going)
  | reads {i : ℕ} {source : Source} {text : String} : sources[i]? = some source →
      c.stages[i]? = some .going → source.content = .ok text →
      Steps limit sources c (c.enter i (.read text))
  | misreads {i : ℕ} {source : Source} {f : Failure} : sources[i]? = some source →
      c.stages[i]? = some .going → locate ("read " ++ source.name) source.content = .error f →
      Steps limit sources c (c.enter i (.returning (some f)))
  | decodes {i : ℕ} {source : Source} {text : String} {m : Module} : sources[i]? = some source →
      c.stages[i]? = some (.read text) → Dump.decode source.name text = .ok m →
      Steps limit sources c ((c.enter i (.returning none)).fill i ⟨source.group, m⟩)
  | misdecodes {i : ℕ} {source : Source} {text : String} {f : Failure} :
      sources[i]? = some source → c.stages[i]? = some (.read text) →
      Dump.decode source.name text = .error f → fatal f.cause = false →
      Steps limit sources c (c.enter i (.returning (some f)))
  | traps {i : ℕ} {source : Source} {text : String} {f : Failure} :
      sources[i]? = some source → c.stages[i]? = some (.read text) →
      Dump.decode source.name text = .error f → fatal f.cause = true →
      Steps limit sources c (c.enter i .trapped)
  | returns {i : ℕ} {r : Option Failure} : c.stages[i]? = some (.returning r) →
      Steps limit sources c ((c.enter i .returned).report r)

theorem steps_of_work (hsource : sources[i]? = some source) (hstage : c.stages[i]? = some stage)
    (h : c.work i source stage = some c') : Steps limit sources c c' := by
  cases stage with
  | started => cases h
  | going =>
      cases hread : locate ("read " ++ source.name) source.content with
      | ok text =>
          simp only [work, hread, Option.some.injEq] at h
          exact h ▸ .reads hsource hstage (locate_eq_ok_iff.mp hread)
      | error f =>
          simp only [work, hread, Option.some.injEq] at h
          exact h ▸ .misreads hsource hstage hread
  | read text =>
      cases hdecode : Dump.decode source.name text with
      | ok m =>
          simp only [work, hdecode, Option.some.injEq] at h
          exact h ▸ .decodes hsource hstage hdecode
      | error f =>
          cases hfatal : fatal f.cause with
          | false =>
              simp only [work, hdecode, hfatal, Bool.false_eq_true, if_false,
                Option.some.injEq] at h
              exact h ▸ .misdecodes hsource hstage hdecode hfatal
          | true =>
              simp only [work, hdecode, hfatal, if_true, Option.some.injEq] at h
              exact h ▸ .traps hsource hstage hdecode hfatal
  | returning r => exact Option.some.inj h ▸ .returns hstage
  | returned => cases h
  | trapped => cases h

theorem steps_of_step? (h : c.step? limit sources m = some c') : Steps limit sources c c' := by
  cases m with
  | start =>
      rw [step?, Option.ite_none_right_eq_some] at h
      exact Option.some.inj h.2 ▸ .starts h.1.1 h.1.2
  | look i seen =>
      rw [step?, Option.ite_none_right_eq_some] at h
      obtain ⟨⟨hstage, hshows⟩, h⟩ := h
      cases seen with
      | true => exact Option.some.inj h ▸ .stops hstage hshows
      | false => exact Option.some.inj h ▸ .goes hstage
  | work i =>
      simp only [step?] at h
      split at h
      · next source stage hsource hstage => exact steps_of_work hsource hstage h
      · cases h

/-! ### Every schedule ends -/

/-- The number of moves that the workers have still to make, those included that are not started
yet. -/
def left (sources : List Source) (c : Crew v) : ℕ :=
  5 * (sources.length - c.stages.length) + (c.stages.map Stage.left).sum

/-- A move starts a worker, brings one further, or is the return of one; only a return matters to
the supervisor. -/
theorem Steps.stages_cases (h : Steps limit sources c c') :
    (c.stages.length < sources.length ∧ c.busy < limit ∧
        c' = { c with stages := c.stages ++ [.started] }) ∨
      (∃ i stage stage', c.stages[i]? = some stage ∧ stage' ≠ .returned ∧
        stage'.left < stage.left ∧ c'.stages = c.stages.set i stage' ∧ c'.state = c.state) ∨
      ∃ i r, c.stages[i]? = some (.returning r) ∧ c' = (c.enter i .returned).report r := by
  cases h with
  | starts hlength hbusy => exact .inl ⟨hlength, hbusy, rfl⟩
  | stops hstage _ => exact .inr (.inl ⟨_, _, _, hstage, by simp, by simp, rfl, rfl⟩)
  | goes hstage => exact .inr (.inl ⟨_, _, _, hstage, by simp, by simp, rfl, rfl⟩)
  | reads _ hstage _ => exact .inr (.inl ⟨_, _, _, hstage, by simp, by simp, rfl, rfl⟩)
  | misreads _ hstage _ => exact .inr (.inl ⟨_, _, _, hstage, by simp, by simp, rfl, rfl⟩)
  | decodes _ hstage _ => exact .inr (.inl ⟨_, _, _, hstage, by simp, by simp, rfl, rfl⟩)
  | misdecodes _ hstage _ _ => exact .inr (.inl ⟨_, _, _, hstage, by simp, by simp, rfl, rfl⟩)
  | traps _ hstage _ _ => exact .inr (.inl ⟨_, _, _, hstage, by simp, by simp, rfl, rfl⟩)
  | returns hstage => exact .inr (.inr ⟨_, _, hstage, rfl⟩)

theorem sum_left_set_lt {stages : List Stage} (hstage : stages[i]? = some stage)
    (hleft : stage'.left < stage.left) :
    ((stages.set i stage').map Stage.left).sum < (stages.map Stage.left).sum := by
  induction stages generalizing i with
  | nil => cases hstage
  | cons s stages ih =>
      cases i with
      | zero =>
          obtain rfl := Option.some.inj hstage
          simpa using hleft
      | succ i => simpa using ih (by simpa using hstage)

theorem Steps.left_lt (h : Steps limit sources c c') : c'.left sources < c.left sources := by
  have hfurther {i : ℕ} {stage stage' : Stage} (hstage : c.stages[i]? = some stage)
      (hleft : stage'.left < stage.left) (hstages : c'.stages = c.stages.set i stage') :
      c'.left sources < c.left sources := by
    have := sum_left_set_lt hstage hleft
    rw [left, left, hstages, List.length_set]
    omega
  obtain ⟨hlength, -, rfl⟩ | ⟨i, stage, stage', hstage, -, hleft, hstages, -⟩ |
    ⟨i, r, hstage, rfl⟩ := h.stages_cases
  · simp only [left, List.length_append, List.map_append, List.sum_append, List.length_singleton,
      List.map_singleton, List.sum_singleton, Stage.left]
    omega
  · exact hfurther hstage hleft hstages
  · exact hfurther hstage (by simp) rfl

/-- Every move of a schedule takes one of the moves that are left. -/
theorem length_add_left_le (h : c.run? limit sources ms = some c') :
    ms.length + c'.left sources ≤ c.left sources := by
  induction ms generalizing c with
  | nil => simp [Option.some.inj h]
  | cons m ms ih =>
      obtain ⟨c₁, hstep, hrun⟩ := Option.bind_eq_some_iff.mp h
      have hlt := (steps_of_step? hstep).left_lt
      have hle := ih hrun
      rw [List.length_cons]
      omega

theorem left_fresh (sources : List Source) :
    (fresh v sources).left sources = 5 * sources.length := by
  simp [left, fresh]

/-! ### Workers that do not come back -/

/-- No move brings a trapped worker back. -/
theorem Steps.trapped (h : Steps limit sources c c') (hi : c.stages[i]? = some .trapped) :
    c'.stages[i]? = some .trapped := by
  have hother {j : ℕ} {stage stage' : Stage} (hstage : c.stages[j]? = some stage)
      (hleft : 0 < stage.left) : (c.stages.set j stage')[i]? = some .trapped := by
    have hne : j ≠ i := by
      rintro rfl
      obtain rfl := Option.some.inj (hi.symm.trans hstage)
      exact absurd hleft (Nat.lt_irrefl 0)
    rw [List.getElem?_set_ne hne, hi]
  obtain ⟨-, -, rfl⟩ | ⟨j, stage, stage', hstage, -, hleft, hstages, -⟩ | ⟨j, r, hstage, rfl⟩ :=
    h.stages_cases
  · exact List.getElem?_append_left (List.getElem?_eq_some_iff.mp hi).1 ▸ hi
  · exact hstages ▸ hother hstage (Nat.zero_lt_of_lt hleft)
  · exact hother hstage (by simp)

/-- Once a worker is trapped, the crew never finishes. -/
theorem not_finished_of_trapped (hi : c.stages[i]? = some .trapped)
    (h : c.run? limit sources ms = some c') : ¬ c'.Finished sources := by
  induction ms generalizing c with
  | nil =>
      obtain rfl := Option.some.inj h
      intro hfinished
      cases hfinished.2 _ (List.mem_of_getElem? hi)
  | cons m ms ih =>
      obtain ⟨c₁, hstep, hrun⟩ := Option.bind_eq_some_iff.mp h
      exact ih ((steps_of_step? hstep).trapped hi) hrun

/-! ### No crew is stuck -/

/-- While not every worker has returned, some move can be made or a worker is trapped. -/
theorem exists_move_or_trapped (hv : v.Lawful) (hle : c.stages.length ≤ sources.length)
    (hlimit : sources ≠ [] → 0 < limit) (h : ¬ c.Finished sources) :
    (∃ m, (c.step? limit sources m).isSome) ∨ .trapped ∈ c.stages := by
  by_cases hreturned : ∀ stage ∈ c.stages, stage = .returned
  · -- the next worker can be started, because nobody is at work
    have hlength : c.stages.length < sources.length :=
      Nat.lt_of_le_of_ne hle fun heq => h ⟨heq, hreturned⟩
    have hbusy : c.busy = 0 := by
      rw [busy, List.countP_eq_zero]
      simpa using hreturned
    have hsources : sources ≠ [] := List.ne_nil_of_length_pos (by omega)
    exact .inl ⟨.start, by simp [step?, hlength, hbusy, hlimit hsources]⟩
  · push Not at hreturned
    obtain ⟨stage, hmem, hstage⟩ := hreturned
    obtain ⟨i, hi⟩ := List.mem_iff_getElem?.mp hmem
    have hbound : i < sources.length :=
      Nat.lt_of_lt_of_le (List.getElem?_eq_some_iff.mp hi).1 hle
    have hsource : sources[i]? = some sources[i] := List.getElem?_eq_getElem hbound
    cases stage with
    | started =>
        obtain ⟨seen, hseen⟩ := hv.answers c.state
        exact .inl ⟨.look i seen, by simp [step?, hi, hseen]⟩
    | going =>
        refine .inl ⟨.work i, ?_⟩
        simp only [step?, hsource, hi, work]
        split <;> rfl
    | read text =>
        refine .inl ⟨.work i, ?_⟩
        simp only [step?, hsource, hi, work]
        split <;> rfl
    | returning r => exact .inl ⟨.work i, by simp [step?, hsource, hi, work]⟩
    | returned => exact absurd rfl hstage
    | trapped => exact .inr hmem

end Crew
end ClientLoom.Load
