import Mathlib

/-!
# Programs with abnormal exits

A program acts on a state and ends in one of four ways: it returns a value, it raises
an error that some caller may catch, it aborts on a failed assertion, or it does
something that has no defined meaning.  The state survives every exit, so effects
that precede an error remain visible.
-/

namespace Exits

universe u v

/-- How a program ends. -/
inductive Exit (α : Type u)
  | ret (value : α)
  | raise
  | abort
  | fault
  deriving DecidableEq, Repr

/-- The value of a program that has returned. -/
def Exit.returned {α : Type u} : Exit α → Option α
  | .ret value => some value
  | .raise => none
  | .abort => none
  | .fault => none

theorem Exit.returned_eq_some {α : Type u} {ended : Exit α} {value : α} :
    ended.returned = some value ↔ ended = .ret value := by
  cases ended with
  | ret result => simp [returned]
  | raise => simp [returned]
  | abort => simp [returned]
  | fault => simp [returned]

/-- Another value in place of the one that was returned. -/
def Exit.map {α : Type u} {β : Type v} (change : α → β) : Exit α → Exit β
  | .ret value => .ret (change value)
  | .raise => .raise
  | .abort => .abort
  | .fault => .fault

theorem Exit.map_eq_ret {α : Type u} {β : Type v} {change : α → β} {ended : Exit α} {value : β} :
    ended.map change = .ret value ↔ ∃ result, ended = .ret result ∧ change result = value := by
  cases ended with
  | ret result => simp [map]
  | raise => simp [map]
  | abort => simp [map]
  | fault => simp [map]

theorem Exit.map_injective {α : Type u} {β : Type v} {change : α → β}
    (injective : Function.Injective change) : Function.Injective (Exit.map change) := by
  intro first second same
  cases first with
  | ret value =>
      rcases Exit.map_eq_ret.mp same.symm with ⟨result, rfl, equal⟩
      rw [injective equal]
  | raise => cases second <;> first | rfl | cases same
  | abort => cases second <;> first | rfl | cases same
  | fault => cases second <;> first | rfl | cases same

/-- The state after a program that has returned or raised an error. -/
def survived {σ : Type v} {α : Type u} : Exit α × σ → Option σ
  | (.ret _, after) => some after
  | (.raise, after) => some after
  | (.abort, _) => none
  | (.fault, _) => none

theorem survived_eq_some {σ : Type v} {α : Type u} {outcome : Exit α × σ} {after : σ}
    (survives : survived outcome = some after) : outcome.2 = after := by
  rcases outcome with ⟨_ | _ | _ | _, last⟩
  · exact Option.some.inj survives
  · exact Option.some.inj survives
  · cases survives
  · cases survives

/-- The state after a program that has returned. -/
def finished {σ : Type v} {α : Type u} : Exit α × σ → Option σ
  | (.ret _, after) => some after
  | (.raise, _) => none
  | (.abort, _) => none
  | (.fault, _) => none

/-- A program that acts on a state. -/
def Program (σ : Type v) (α : Type u) := σ → Exit α × σ

namespace Program

variable {σ : Type v} {α β : Type u}

instance : Monad (Program σ) where
  pure value := fun state => (.ret value, state)
  bind program next := fun state =>
    match program state with
    | (.ret value, after) => next value after
    | (.raise, after) => (.raise, after)
    | (.abort, after) => (.abort, after)
    | (.fault, after) => (.fault, after)

/-- A program that leaves the state alone and ends as given. -/
def exit (result : Exit α) : Program σ α := fun state => (result, state)

/-- A program that reads the state. -/
def get (read : σ → α) : Program σ α := fun state => (.ret (read state), state)

/-- A program that changes the state. -/
def modify (change : σ → σ) : Program σ PUnit := fun state => (.ret ⟨⟩, change state)

/-- A program that reads a part of the state without which it has no meaning. -/
def require (read : σ → Option α) : Program σ α := fun state =>
  ((read state).elim .fault .ret, state)

/-- A program that acts on a part of the state only. -/
def focus {τ : Type v} (part : σ → τ) (update : σ → τ → σ) (program : Program τ α) :
    Program σ α := fun state =>
  ((program (part state)).1, update state (program (part state)).2)

/-- A program whose errors are caught by its caller. -/
def caught (program : Program σ α) : Program σ PUnit := fun state =>
  match program state with
  | (.ret _, after) => (.ret ⟨⟩, after)
  | (.raise, after) => (.ret ⟨⟩, after)
  | (.abort, after) => (.abort, after)
  | (.fault, after) => (.fault, after)

@[simp]
theorem pure_apply (value : α) (state : σ) :
    (pure value : Program σ α) state = (.ret value, state) := rfl

@[simp]
theorem exit_apply (result : Exit α) (state : σ) : exit result state = (result, state) := rfl

@[simp]
theorem get_apply (read : σ → α) (state : σ) : get read state = (.ret (read state), state) := rfl

@[simp]
theorem modify_apply (change : σ → σ) (state : σ) :
    modify change state = (.ret ⟨⟩, change state) := rfl

theorem bind_apply (program : Program σ α) (next : α → Program σ β) (state : σ) :
    (program >>= next) state =
      match program state with
      | (.ret value, after) => next value after
      | (.raise, after) => (.raise, after)
      | (.abort, after) => (.abort, after)
      | (.fault, after) => (.fault, after) := rfl

theorem bind_of_ret {program : Program σ α} {next : α → Program σ β} {state after : σ} {value : α}
    (returns : program state = (.ret value, after)) :
    (program >>= next) state = next value after := by
  rw [bind_apply, returns]

theorem bind_of_fault {program : Program σ α} {next : α → Program σ β} {state after : σ}
    (faults : program state = (.fault, after)) : (program >>= next) state = (.fault, after) := by
  rw [bind_apply, faults]

theorem require_of_some {read : σ → Option α} {state : σ} {value : α}
    (found : read state = some value) : require read state = (.ret value, state) := by
  rw [require, found, Option.elim_some]

theorem require_of_none {read : σ → Option α} {state : σ} (missing : read state = none) :
    require read state = (.fault, state) := by
  rw [require, missing, Option.elim_none]

theorem bind_assoc {γ : Type u} (program : Program σ α) (next : α → Program σ β)
    (last : β → Program σ γ) (state : σ) :
    ((program >>= next) >>= last) state = (program >>= fun value => next value >>= last) state := by
  rw [bind_apply, bind_apply, bind_apply]
  rcases program state with ⟨exit, after⟩
  cases exit with
  | ret value => rfl
  | raise => rfl
  | abort => rfl
  | fault => rfl

/-- Only what follows a return matters. -/
theorem bind_congr {program : Program σ α} {next other : α → Program σ β} {state : σ}
    (same : ∀ value after, program state = (.ret value, after) →
      next value after = other value after) :
    (program >>= next) state = (program >>= other) state := by
  rw [bind_apply, bind_apply]
  rcases ended : program state with ⟨exit, after⟩
  cases exit with
  | ret value => exact same value after ended
  | raise => rfl
  | abort => rfl
  | fault => rfl

/-- A composition returns exactly when both of its parts do. -/
theorem bind_eq_ret_iff {program : Program σ α} {next : α → Program σ β} {state final : σ}
    {result : β} :
    (program >>= next) state = (.ret result, final) ↔
      ∃ value after, program state = (.ret value, after) ∧
        next value after = (.ret result, final) := by
  constructor
  · intro returns
    rw [bind_apply] at returns
    rcases first : program state with ⟨ended, after⟩
    rw [first] at returns
    cases ended with
    | ret value => exact ⟨value, after, rfl, returns⟩
    | raise => simp at returns
    | abort => simp at returns
    | fault => simp at returns
  · rintro ⟨value, after, first, second⟩
    rw [bind_of_ret first, second]

/-- However a composition ends, its state has come about by the two parts. -/
theorem bind_kept (relation : σ → σ → Prop)
    (trans : ∀ {first second third}, relation first second → relation second third →
      relation first third)
    {program : Program σ α} {next : α → Program σ β} {state : σ}
    (before : relation state (program state).2)
    (later : ∀ value after, relation after (next value after).2) :
    relation state ((program >>= next) state).2 := by
  rw [bind_apply]
  rcases ended : program state with ⟨exit, after⟩
  rw [ended] at before
  cases exit with
  | ret value => exact trans before (later value after)
  | raise => exact before
  | abort => exact before
  | fault => exact before

/-- Two states in which the parts of a composition end alike. -/
theorem bind_fst_congr {program : Program σ α} {next : α → Program σ β} {state other : σ}
    (first : (program state).1 = (program other).1)
    (later : ∀ value, (next value (program state).2).1 = (next value (program other).2).1) :
    ((program >>= next) state).1 = ((program >>= next) other).1 := by
  rw [bind_apply, bind_apply]
  rcases ended : program state with ⟨exit, after⟩
  rcases ended' : program other with ⟨exit', after'⟩
  rw [ended, ended'] at first later
  obtain rfl : exit = exit' := first
  cases exit with
  | ret value => exact later value
  | raise => rfl
  | abort => rfl
  | fault => rfl

/-- A caught program goes on exactly after what the program has survived. -/
theorem finished_caught (program : Program σ α) (state : σ) :
    finished (caught program state) = survived (program state) := by
  unfold caught
  rcases program state with ⟨exit, after⟩
  cases exit with
  | ret value => rfl
  | raise => rfl
  | abort => rfl
  | fault => rfl

theorem finished_bind (program : Program σ PUnit) (next : Program σ β) (state : σ) :
    finished ((program >>= fun _ => next) state) =
      (finished (program state)).bind fun after => finished (next after) := by
  rw [bind_apply]
  rcases program state with ⟨exit, after⟩
  cases exit with
  | ret value => rfl
  | raise => rfl
  | abort => rfl
  | fault => rfl

end Program

end Exits
