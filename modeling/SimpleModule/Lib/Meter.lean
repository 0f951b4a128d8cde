import SimpleModule.Lib.Exits

/-!
# Programs with a meter

A metered program ends like a program and also reports the largest measure of a state that
it has gone through.  It is built from operations that are metered as a whole: the state
after each operation counts.  The program behind the meter is what remains when the report
is left out.
-/

namespace Exits

universe u v

/-- A program together with the largest measure that it reports. -/
def Metered (σ : Type v) (α : Type u) := σ → (Exit α × σ) × ℕ

namespace Metered

variable {σ : Type v} {α β : Type u}

/-- What follows a metered part, given how that part has ended. -/
def andThen (next : α → Metered σ β) : (Exit α × σ) × ℕ → (Exit β × σ) × ℕ
  | ((.ret value, after), peak) => ((next value after).1, max peak (next value after).2)
  | ((.raise, after), peak) => ((.raise, after), peak)
  | ((.abort, after), peak) => ((.abort, after), peak)
  | ((.fault, after), peak) => ((.fault, after), peak)

instance : Monad (Metered σ) where
  pure value := fun state => ((.ret value, state), 0)
  bind program next := fun state => andThen next (program state)

/-- An operation, measured when it has ended. -/
def of (measure : σ → ℕ) (program : Program σ α) : Metered σ α := fun state =>
  (program state, measure (program state).2)

/-- The program without its meter. -/
def erase (program : Metered σ α) : Program σ α := fun state => (program state).1

/-- The largest measure that the program reports. -/
def peak (program : Metered σ α) (state : σ) : ℕ := (program state).2

section Erase

variable {measure : σ → ℕ} {program : Metered σ α} {next : α → Metered σ β}

@[simp]
theorem erase_pure (value : α) : (pure value : Metered σ α).erase = pure value := rfl

@[simp]
theorem erase_of (measure : σ → ℕ) (program : Program σ α) :
    (Metered.of measure program).erase = program := rfl

@[simp]
theorem erase_bind (program : Metered σ α) (next : α → Metered σ β) :
    (program >>= next).erase = program.erase >>= fun value => (next value).erase := by
  funext state
  rw [Program.bind_apply]
  show (andThen next (program state)).1 = _
  unfold erase
  rcases program state with ⟨⟨_ | _ | _ | _, after⟩, peak⟩
  · rfl
  · rfl
  · rfl
  · rfl

end Erase

section Peak

variable {program : Metered σ α} {next : α → Metered σ β} {state : σ} {limit : ℕ}

/-- A sequence stays below a limit if both of its parts do. -/
theorem peak_bind_le (first : program.peak state ≤ limit)
    (second : ∀ value after, program.erase state = (.ret value, after) →
      (next value).peak after ≤ limit) :
    (program >>= next).peak state ≤ limit := by
  show (andThen next (program state)).2 ≤ limit
  unfold peak at first
  unfold erase at second
  generalize program state = outcome at first second ⊢
  rcases outcome with ⟨⟨value | _ | _ | _, after⟩, peak⟩
  · exact max_le first (second value after rfl)
  · exact first
  · exact first
  · exact first

theorem le_peak_bind_left : program.peak state ≤ (program >>= next).peak state := by
  show (program state).2 ≤ (andThen next (program state)).2
  rcases program state with ⟨⟨value | _ | _ | _, after⟩, peak⟩
  · exact le_max_left _ _
  · exact le_refl _
  · exact le_refl _
  · exact le_refl _

/-- What the second part reaches, the sequence reaches. -/
theorem le_peak_bind_right {value : α} {after : σ}
    (returns : program.erase state = (.ret value, after)) :
    (next value).peak after ≤ (program >>= next).peak state := by
  show _ ≤ (andThen next (program state)).2
  unfold erase at returns
  generalize program state = outcome at returns ⊢
  rcases outcome with ⟨ended, peak⟩
  cases returns
  exact le_max_right _ _

end Peak

end Metered

end Exits
