import Mathlib

/-!
# Runs of a partial step function

`step state input` is `none` when the operation gives no result.  A run folds the
step over a list of inputs.  `StatesMeet` and `StepsMeet` speak about every state
of a run and about every operation in the state it is applied to; the two rules
below turn a one-step fact into a fact about whole runs.
-/

namespace Runs

universe u v

variable {σ : Type u} {ι : Type v}

/-- The state after a list of operations, if each of them gives a result. -/
def run (step : σ → ι → Option σ) : σ → List ι → Option σ
  | state, [] => some state
  | state, input :: rest => (step state input).bind fun next => run step next rest

/-- Every state of the run, the first and the last included, has the property. -/
def StatesMeet (step : σ → ι → Option σ) (property : σ → Prop) : σ → List ι → Prop
  | state, [] => property state
  | state, input :: rest =>
      property state ∧ ∀ next, step state input = some next → StatesMeet step property next rest

/-- Every operation of the run meets the condition in the state it is applied to. -/
def StepsMeet (step : σ → ι → Option σ) (condition : σ → ι → Prop) : σ → List ι → Prop
  | _, [] => True
  | state, input :: rest =>
      condition state input ∧
        ∀ next, step state input = some next → StepsMeet step condition next rest

variable {step : σ → ι → Option σ}

@[simp]
theorem run_nil (state : σ) : run step state [] = some state := rfl

theorem run_cons (state : σ) (input : ι) (rest : List ι) :
    run step state (input :: rest) = (step state input).bind fun next => run step next rest := rfl

theorem StatesMeet.head {property : σ → Prop} {state : σ} {inputs : List ι}
    (states : StatesMeet step property state inputs) : property state := by
  cases inputs with
  | nil => exact states
  | cons input rest => exact states.1

theorem StatesMeet.last {property : σ → Prop} {state final : σ} {inputs : List ι}
    (states : StatesMeet step property state inputs)
    (reached : run step state inputs = some final) : property final := by
  induction inputs generalizing state with
  | nil => exact Option.some.inj reached ▸ states
  | cons input rest ih =>
      rw [run_cons, Option.bind_eq_some_iff] at reached
      rcases reached with ⟨next, stepped, later⟩
      exact ih (states.2 next stepped) later

theorem StepsMeet.cons {condition : σ → ι → Prop} {state next : σ} {input : ι} {rest : List ι}
    (stepped : step state input = some next) (head : condition state input)
    (tail : StepsMeet step condition next rest) :
    StepsMeet step condition state (input :: rest) := by
  refine ⟨head, fun other reached => ?_⟩
  rw [stepped, Option.some.injEq] at reached
  exact reached ▸ tail

theorem stepsMeet_cons_of_some {condition : σ → ι → Prop} {state next : σ} {input : ι}
    {rest : List ι} (stepped : step state input = some next) :
    StepsMeet step condition state (input :: rest) ↔
      condition state input ∧ StepsMeet step condition next rest := by
  simp [StepsMeet, stepped]

theorem stepsMeet_cons_of_none {condition : σ → ι → Prop} {state : σ} {input : ι}
    {rest : List ι} (stepped : step state input = none) :
    StepsMeet step condition state (input :: rest) ↔ condition state input := by
  simp [StepsMeet, stepped]

/-- Whether the steps of a concrete run conform can be computed. -/
instance decidableStepsMeet (step : σ → ι → Option σ) (condition : σ → ι → Prop)
    [∀ state input, Decidable (condition state input)] :
    (state : σ) → (inputs : List ι) → Decidable (StepsMeet step condition state inputs)
  | _, [] => isTrue trivial
  | state, input :: rest =>
      match stepped : step state input with
      | none => decidable_of_iff _ (stepsMeet_cons_of_none stepped).symm
      | some next =>
          have := decidableStepsMeet step condition next rest
          decidable_of_iff _ (stepsMeet_cons_of_some stepped).symm

theorem StatesMeet.and {left right : σ → Prop} {state : σ} {inputs : List ι}
    (lefts : StatesMeet step left state inputs) (rights : StatesMeet step right state inputs) :
    StatesMeet step (fun state => left state ∧ right state) state inputs := by
  induction inputs generalizing state with
  | nil => exact ⟨lefts, rights⟩
  | cons input rest ih =>
      exact ⟨⟨lefts.1, rights.1⟩, fun next stepped => ih (lefts.2 next stepped)
        (rights.2 next stepped)⟩

theorem StatesMeet.imp {left right : σ → Prop} (weaker : ∀ {state}, left state → right state)
    {state : σ} {inputs : List ι} (states : StatesMeet step left state inputs) :
    StatesMeet step right state inputs := by
  induction inputs generalizing state with
  | nil => exact weaker states
  | cons input rest ih => exact ⟨weaker states.1, fun next stepped => ih (states.2 next stepped)⟩

theorem StepsMeet.imp {left right : σ → ι → Prop}
    (weaker : ∀ {state input}, left state input → right state input) {state : σ} {inputs : List ι}
    (steps : StepsMeet step left state inputs) : StepsMeet step right state inputs := by
  induction inputs generalizing state with
  | nil => trivial
  | cons input rest ih => exact ⟨weaker steps.1, fun next stepped => ih (steps.2 next stepped)⟩

theorem stepsMeet_of_forall {condition : σ → ι → Prop}
    (all : ∀ state input, condition state input) (state : σ) (inputs : List ι) :
    StepsMeet step condition state inputs := by
  induction inputs generalizing state with
  | nil => trivial
  | cons input rest ih => exact ⟨all state input, fun next _ => ih next⟩

theorem StepsMeet.and {left right : σ → ι → Prop} {state : σ} {inputs : List ι}
    (lefts : StepsMeet step left state inputs) (rights : StepsMeet step right state inputs) :
    StepsMeet step (fun state input => left state input ∧ right state input) state inputs := by
  induction inputs generalizing state with
  | nil => trivial
  | cons input rest ih =>
      exact ⟨⟨lefts.1, rights.1⟩, fun next stepped => ih (lefts.2 next stepped)
        (rights.2 next stepped)⟩

/-- Every state reached by a run of conforming steps has a property the steps preserve. -/
theorem statesMeet_of_stepsMeet {property : σ → Prop} {condition : σ → ι → Prop}
    (preserved : ∀ {state input next}, property state → condition state input →
      step state input = some next → property next)
    {state : σ} {inputs : List ι} (initial : property state)
    (steps : StepsMeet step condition state inputs) :
    StatesMeet step property state inputs := by
  induction inputs generalizing state with
  | nil => exact initial
  | cons input rest ih =>
      refine ⟨initial, fun next stepped => ?_⟩
      exact ih (preserved initial steps.1 stepped) (steps.2 next stepped)

/-- What every input keeps, a run keeps. -/
theorem run_invariant {property : σ → Prop} {state final : σ} {inputs : List ι}
    (each : ∀ input ∈ inputs, ∀ state next, property state → step state input = some next →
      property next)
    (initial : property state) (reached : run step state inputs = some final) :
    property final := by
  induction inputs generalizing state with
  | nil => exact Option.some.inj reached ▸ initial
  | cons input rest ih =>
      rw [run_cons, Option.bind_eq_some_iff] at reached
      rcases reached with ⟨next, stepped, later⟩
      apply ih (fun other member => each other (List.mem_cons_of_mem _ member)) _ later
      exact each input List.mem_cons_self state next initial stepped

/-- A run whose conforming operations all give results goes through. -/
theorem exists_run_of_stepsMeet {property : σ → Prop} {condition : σ → ι → Prop}
    (progress : ∀ {state input}, property state → condition state input →
      ∃ next, step state input = some next ∧ property next)
    {state : σ} {inputs : List ι} (initial : property state)
    (steps : StepsMeet step condition state inputs) :
    ∃ final, run step state inputs = some final ∧ property final := by
  induction inputs generalizing state with
  | nil => exact ⟨state, rfl, initial⟩
  | cons input rest ih =>
      rcases progress initial steps.1 with ⟨next, stepped, kept⟩
      rcases ih kept (steps.2 next stepped) with ⟨final, later, last⟩
      exact ⟨final, by rw [run_cons, stepped, Option.bind_some, later], last⟩

/-- A run goes through exactly if each of its operations gives a result. -/
theorem run_isSome_iff {property : σ → Prop} {allowed condition : σ → ι → Prop}
    (exact : ∀ {state input}, property state → allowed state input →
      ((step state input).isSome = true ↔ condition state input))
    (preserved : ∀ {state input next}, property state → step state input = some next →
      property next)
    {state : σ} {inputs : List ι} (initial : property state)
    (steps : StepsMeet step allowed state inputs) :
    (run step state inputs).isSome = true ↔ StepsMeet step condition state inputs := by
  induction inputs generalizing state with
  | nil => exact iff_of_true rfl trivial
  | cons input rest ih =>
      have here := exact initial steps.1
      rcases stepped : step state input with _ | next
      · rw [stepsMeet_cons_of_none stepped, run_cons, stepped, ← here, stepped]
        rfl
      · rw [stepsMeet_cons_of_some stepped, run_cons, stepped, ← here, stepped, Option.bind_some,
          ih (preserved initial stepped) (steps.2 next stepped)]
        exact (and_iff_right rfl).symm

theorem stepsMeet_of_run {state final : σ} {inputs : List ι}
    (reached : run step state inputs = some final) :
    StepsMeet step (fun state input => (step state input).isSome = true) state inputs := by
  induction inputs generalizing state with
  | nil => trivial
  | cons input rest ih =>
      rw [run_cons, Option.bind_eq_some_iff] at reached
      rcases reached with ⟨next, stepped, later⟩
      exact .cons stepped (by rw [stepped]; rfl) (ih later)

/-- A condition forced on each step by the states around it holds of every step of the run. -/
theorem stepsMeet_of_statesMeet {property : σ → Prop} {given condition : σ → ι → Prop}
    (forced : ∀ {state input}, property state → given state input →
      (∀ next, step state input = some next → property next) → condition state input)
    {state : σ} {inputs : List ι} (states : StatesMeet step property state inputs)
    (steps : StepsMeet step given state inputs) : StepsMeet step condition state inputs := by
  induction inputs generalizing state with
  | nil => trivial
  | cons input rest ih =>
      refine ⟨forced states.1 steps.1 fun next stepped => (states.2 next stepped).head, ?_⟩
      exact fun next stepped => ih (states.2 next stepped) (steps.2 next stepped)

/--
Along a list of inputs the system always answers, its answers conform to a specification
that takes the same inputs, and the two states are related throughout.
-/
def Follows {τ ω : Type*} (step : σ → ι → Option (σ × ω)) (spec : τ → ι → τ)
    (conforms : τ → ι → ω → Prop) (related : σ → τ → Prop) : σ → τ → List ι → Prop
  | state, abstract, [] => related state abstract
  | state, abstract, input :: rest =>
      related state abstract ∧ ∃ next answer, step state input = some (next, answer) ∧
        conforms abstract input answer ∧
        Follows step spec conforms related next (spec abstract input) rest

/-- A specification whose conforming steps are followed is followed in whole runs. -/
theorem follows_of_step {τ ω : Type*} {step : σ → ι → Option (σ × ω)} {spec : τ → ι → τ}
    {conforms : τ → ι → ω → Prop} {related : σ → τ → Prop} {condition : τ → ι → Prop}
    (stepped : ∀ {state abstract input}, related state abstract → condition abstract input →
      ∃ next answer, step state input = some (next, answer) ∧ conforms abstract input answer ∧
        related next (spec abstract input))
    {state : σ} {abstract : τ} {inputs : List ι} (initial : related state abstract)
    (steps : StepsMeet (fun abstract input => some (spec abstract input)) condition abstract
      inputs) :
    Follows step spec conforms related state abstract inputs := by
  induction inputs generalizing state abstract with
  | nil => exact initial
  | cons input rest ih =>
      rcases steps with ⟨allowed, later⟩
      rcases stepped initial allowed with ⟨next, answer, moved, conforming, nextRelated⟩
      refine ⟨initial, next, answer, moved, conforming, ?_⟩
      exact ih nextRelated (later _ rfl)

theorem Follows.imp {τ ω : Type*} {step : σ → ι → Option (σ × ω)} {spec : τ → ι → τ}
    {conforms : τ → ι → ω → Prop} {strong weak : σ → τ → Prop}
    (weaker : ∀ {state abstract}, strong state abstract → weak state abstract) {state : σ}
    {abstract : τ} {inputs : List ι}
    (follows : Follows step spec conforms strong state abstract inputs) :
    Follows step spec conforms weak state abstract inputs := by
  induction inputs generalizing state abstract with
  | nil => exact weaker follows
  | cons input rest ih =>
      rcases follows with ⟨related, next, answer, moved, conforming, later⟩
      exact ⟨weaker related, next, answer, moved, conforming, ih later⟩

/-- Two systems that take the same inputs stay related if each pair of steps keeps them so. -/
theorem run_related {τ : Type*} {other : τ → ι → Option τ} {relation : σ → τ → Prop}
    {left : σ → ι → Prop} {right : τ → ι → Prop}
    (preserved : ∀ {state input next} {state' next' : τ}, relation state state' →
      left state input → right state' input → step state input = some next →
      other state' input = some next' → relation next next')
    {state final : σ} {state' final' : τ} {inputs : List ι} (initial : relation state state')
    (lefts : StepsMeet step left state inputs) (rights : StepsMeet other right state' inputs)
    (reached : run step state inputs = some final)
    (reached' : run other state' inputs = some final') : relation final final' := by
  induction inputs generalizing state state' with
  | nil => exact Option.some.inj reached ▸ Option.some.inj reached' ▸ initial
  | cons input rest ih =>
      rw [run_cons, Option.bind_eq_some_iff] at reached reached'
      rcases reached with ⟨next, stepped, later⟩
      rcases reached' with ⟨next', stepped', later'⟩
      apply ih (preserved initial lefts.1 rights.1 stepped stepped')
      · exact lefts.2 next stepped
      · exact rights.2 next' stepped'
      · exact later
      · exact later'

/-! ## Total steps -/

/-- The state after a history of inputs that always have a result. -/
def after (next : σ → ι → σ) (start : σ) (history : List ι) : σ := history.foldl next start

/-- Every input of the history is allowed in the state that it meets. -/
abbrev Allowed (next : σ → ι → σ) (allowed : σ → ι → Prop) (start : σ) (history : List ι) : Prop :=
  StepsMeet (fun state input => some (next state input)) allowed start history

section Total

variable {next : σ → ι → σ} {allowed : σ → ι → Prop} {start : σ}

@[simp]
theorem after_append_singleton (history : List ι) (input : ι) :
    after next start (history ++ [input]) = next (after next start history) input := by
  simp [after]

theorem allowed_append {first second : List ι} :
    Allowed next allowed start (first ++ second) ↔
      Allowed next allowed start first ∧ Allowed next allowed (after next start first) second := by
  induction first generalizing start with
  | nil => simp [Allowed, StepsMeet, after]
  | cons input rest ih => simp [Allowed, StepsMeet, after, ih, and_assoc]

theorem allowed_append_singleton {history : List ι} {input : ι} :
    Allowed next allowed start (history ++ [input]) ↔
      Allowed next allowed start history ∧ allowed (after next start history) input := by
  simp [allowed_append, StepsMeet]

theorem Allowed.of_beginning {front history : List ι} (before : front <+: history)
    (whole : Allowed next allowed start history) : Allowed next allowed start front := by
  rcases before with ⟨later, rfl⟩
  exact (allowed_append.mp whole).1

/-- A property that allowed inputs preserve holds after every allowed history. -/
theorem Allowed.invariant {property : σ → Prop}
    (preserved : ∀ {state input}, property state → allowed state input →
      property (next state input))
    (initial : property start) {history : List ι}
    (whole : Allowed next allowed start history) : property (after next start history) := by
  induction history using List.reverseRecOn with
  | nil => exact initial
  | append_singleton history input ih =>
      rw [allowed_append_singleton] at whole
      rw [after_append_singleton]
      exact preserved (ih whole.1) whole.2

end Total

end Runs
