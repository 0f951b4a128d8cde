import Mathlib

/-!
# Incremental machines

An incremental machine buffers input items and works through them by small steps
until it needs more input.  A step taken before more input arrives is also the
step taken after it (`step_feed`), and every step decreases a size.

`drain` runs the machine until it is quiet.  The main fact is `drain_feed`:
draining between two deliveries changes neither the final state nor the sequence
of outputs.  Consequently `deliver`, which drains after every chunk, depends only
on the concatenation of its chunks.

`loop` is the program a machine is implemented by, a step function repeated until
it stops.  `loop_simulates` is the rule for showing that it computes `drain`.
-/

universe u v w

/-- A machine that consumes buffered items by steps which ignore later input. -/
structure Incremental (State : Type u) (Item : Type v) (Output : Type w) where
  feed : State → List Item → State
  step : State → Option (State × List Output)
  size : State → ℕ
  feed_nil : ∀ state, feed state [] = state
  feed_feed : ∀ state first second, feed (feed state first) second = feed state (first ++ second)
  step_size : ∀ {state next outputs}, step state = some (next, outputs) → size next < size state
  step_feed : ∀ {state next outputs} items, step state = some (next, outputs) →
    step (feed state items) = some (feed next items, outputs)

namespace Incremental

variable {State : Type u} {Item : Type v} {Output : Type w}
  (machine : Incremental State Item Output)

/-- A machine is quiet when it can do nothing without further input. -/
def Quiet (state : State) : Prop := machine.step state = none

/-- Run at most `fuel` steps, collecting the outputs. -/
def drainWith : ℕ → State → State × List Output
  | 0, state => (state, [])
  | fuel + 1, state =>
      match machine.step state with
      | none => (state, [])
      | some (next, outputs) =>
          ((drainWith fuel next).1, outputs ++ (drainWith fuel next).2)

/-- Run until quiet. The size of the state bounds the number of steps. -/
def drain (state : State) : State × List Output :=
  machine.drainWith (machine.size state) state

/-- Deliver chunks one by one, draining after each. -/
def deliver : State → List (List Item) → State × List Output
  | state, [] => (state, [])
  | state, chunk :: rest =>
      let drained := machine.drain (machine.feed state chunk)
      ((deliver drained.1 rest).1, drained.2 ++ (deliver drained.1 rest).2)

variable {machine}

theorem drainWith_quiet {state : State} (quiet : machine.Quiet state) (fuel : ℕ) :
    machine.drainWith fuel state = (state, []) := by
  cases fuel with
  | zero => rfl
  | succ fuel =>
      unfold Quiet at quiet
      simp only [drainWith, quiet]

theorem drainWith_of_size_le {state : State} {fuel : ℕ} (enough : machine.size state ≤ fuel) :
    machine.drainWith fuel state = machine.drain state := by
  suffices general : ∀ (left right : ℕ) (state : State), machine.size state ≤ left →
      machine.size state ≤ right → machine.drainWith left state = machine.drainWith right state from
    general fuel (machine.size state) state enough le_rfl
  intro left
  induction left with
  | zero =>
      intro right state bounded _
      have quiet : machine.Quiet state := by
        unfold Quiet
        by_contra moves
        rcases Option.ne_none_iff_exists'.mp moves with ⟨⟨next, outputs⟩, stepped⟩
        have := machine.step_size stepped
        omega
      rw [drainWith_quiet quiet, drainWith_quiet quiet]
  | succ left ih =>
      intro right state leftBound rightBound
      cases stepped : machine.step state with
      | none => rw [drainWith_quiet stepped, drainWith_quiet stepped]
      | some result =>
          rcases result with ⟨next, outputs⟩
          have smaller := machine.step_size stepped
          rcases right with _ | right
          · omega
          · simp only [drainWith, stepped]
            rw [ih right next (by omega) (by omega)]

theorem drain_of_quiet {state : State} (quiet : machine.Quiet state) :
    machine.drain state = (state, []) :=
  drainWith_quiet quiet _

theorem drain_of_step {state next : State} {outputs : List Output}
    (stepped : machine.step state = some (next, outputs)) :
    machine.drain state = ((machine.drain next).1, outputs ++ (machine.drain next).2) := by
  have smaller := machine.step_size stepped
  rcases fuel_eq : machine.size state with _ | fuel
  · omega
  · rw [drain, fuel_eq]
    simp only [drainWith, stepped]
    rw [drainWith_of_size_le (by omega)]

/-- Induction along the steps of a machine. -/
theorem step_induction (machine : Incremental State Item Output) {motive : State → Prop}
    (quiet : ∀ state, machine.Quiet state → motive state)
    (step : ∀ state next outputs, machine.step state = some (next, outputs) → motive next →
      motive state) (state : State) : motive state := by
  induction size_eq : machine.size state using Nat.strong_induction_on generalizing state with
  | _ size ih =>
      cases stepped : machine.step state with
      | none => exact quiet state stepped
      | some result =>
          refine step state result.1 result.2 stepped (ih _ ?_ result.1 rfl)
          have := machine.step_size stepped
          omega

theorem quiet_drain (state : State) : machine.Quiet (machine.drain state).1 := by
  induction state using step_induction machine with
  | quiet state quiet => rwa [drain_of_quiet quiet]
  | step state next outputs stepped ih => rwa [drain_of_step stepped]

/-- Draining before more input arrives does not change the result of draining after it. -/
theorem drain_feed (state : State) (items : List Item) :
    machine.drain (machine.feed state items) =
      ((machine.drain (machine.feed (machine.drain state).1 items)).1,
        (machine.drain state).2 ++
          (machine.drain (machine.feed (machine.drain state).1 items)).2) := by
  induction state using step_induction machine with
  | quiet state quiet => rw [drain_of_quiet quiet]; rfl
  | step state next outputs stepped ih =>
      rw [drain_of_step (machine.step_feed items stepped), drain_of_step stepped, ih]
      simp [List.append_assoc]

/-- The result of a delivery depends only on the concatenation of the chunks. -/
theorem deliver_eq_drain {state : State} (quiet : machine.Quiet state)
    (chunks : List (List Item)) :
    machine.deliver state chunks = machine.drain (machine.feed state chunks.flatten) := by
  induction chunks generalizing state with
  | nil => simp [deliver, machine.feed_nil, drain_of_quiet quiet]
  | cons chunk rest ih =>
      simp only [deliver, List.flatten_cons]
      rw [ih (quiet_drain _), ← machine.feed_feed, drain_feed (machine.feed state chunk)]

/-- A loop around a step function; `none` when the fuel does not suffice. -/
def loop {σ : Type*} (step : σ → Option (σ × List Output)) : ℕ → σ → Option (σ × List Output)
  | 0, _ => none
  | fuel + 1, state =>
      match step state with
      | none => some (state, [])
      | some (next, outputs) =>
          (loop step fuel next).map fun result => (result.1, outputs ++ result.2)

/-- A loop whose steps simulate those of a machine ends, with the outputs of the machine. -/
theorem loop_simulates {σ : Type*} {step : σ → Option (σ × List Output)}
    (related : σ → State → Prop)
    (stops : ∀ {state abstract}, related state abstract → machine.step abstract = none →
      step state = none)
    (moves : ∀ {state abstract abstractNext outputs}, related state abstract →
      machine.step abstract = some (abstractNext, outputs) →
      ∃ next, step state = some (next, outputs) ∧ related next abstractNext)
    {state : σ} {abstract : State} (start : related state abstract) {fuel : ℕ}
    (enough : machine.size abstract < fuel) :
    ∃ final, loop step fuel state = some (final, (machine.drain abstract).2) ∧
      related final (machine.drain abstract).1 := by
  induction abstract using step_induction machine generalizing state fuel with
  | quiet abstract quiet =>
      rcases fuel with _ | fuel
      · omega
      · rw [drain_of_quiet quiet]
        exact ⟨state, by simp only [loop, stops start quiet], start⟩
  | step abstract abstractNext outputs stepped ih =>
      rcases fuel with _ | fuel
      · omega
      · rcases moves start stepped with ⟨next, moved, nextRelated⟩
        have smaller := machine.step_size stepped
        have remaining : machine.size abstractNext < fuel := by omega
        rcases ih nextRelated remaining with ⟨final, looped, finalRelated⟩
        refine ⟨final, ?_, ?_⟩
        · simp only [loop, moved, looped, Option.map_some, drain_of_step stepped]
        · rwa [drain_of_step stepped]

end Incremental
