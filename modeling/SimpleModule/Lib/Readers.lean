import SimpleModule.Lib.Exits

/-!
# Local readers

A reader is a program that is given a buffer and returns the number of entries that it has
consumed.  Some results are refusals.  The reader is local if an accepted result depends
on the consumed entries only, and if it refuses every buffer that is cut off before their
end.  What a refusal leaves unchanged is described by a function that observes the state.

The rules say that programs without a buffer, fetches of entries, and readers nested in
readers are local.  Positions are counted from the start of the whole buffer, and
`LocalFrom` is about a reader that goes on at a position.
-/

namespace Readers

open Exits

universe u v w

variable {σ : Type u} {β : Type v} {γ : Type w}

/-! ## Observations -/

/-- The program does not change what is observed, however it ends. -/
def Keeps {α : Type*} (observe : σ → γ) (program : Program σ α) : Prop :=
  ∀ state, observe (program state).2 = observe state

section Keeps

variable {α δ : Type v} {observe : σ → γ}

theorem keeps_pure (value : α) : Keeps observe (pure value : Program σ α) := fun _ => rfl

theorem keeps_exit (result : Exit α) : Keeps observe (Program.exit result : Program σ α) :=
  fun _ => rfl

theorem keeps_get (read : σ → α) : Keeps observe (Program.get read) := fun _ => rfl

theorem Keeps.of_ret {program : Program σ α} (keeps : Keeps observe program) {state after : σ}
    {ended : Exit α} (returns : program state = (ended, after)) :
    observe after = observe state := by
  have same := keeps state
  rw [returns] at same
  exact same

theorem Keeps.bind {program : Program σ α} {next : α → Program σ δ}
    (first : Keeps observe program) (second : ∀ value, Keeps observe (next value)) :
    Keeps observe (program >>= next) := by
  intro state
  rw [Program.bind_apply]
  rcases outcome : program state with ⟨ended, after⟩
  have same := first.of_ret outcome
  cases ended with
  | ret value => exact (second value after).trans same
  | raise => exact same
  | abort => exact same
  | fault => exact same

theorem Keeps.ite {condition : Prop} [Decidable condition] {yes no : Program σ α}
    (first : Keeps observe yes) (second : Keeps observe no) :
    Keeps observe (if condition then yes else no) := by
  split_ifs
  · exact first
  · exact second

end Keeps

/-! ## Refusals and locality -/

variable (observe : σ → γ) (refusal : ℤ → Prop)

/-- The program returns a refusal and has changed nothing that is observed. -/
def GivesUp (program : Program σ ℤ) (state : σ) : Prop :=
  ∃ result final, program state = (.ret result, final) ∧ refusal result ∧
    observe final = observe state

/--
An accepted result is the position reached.  The reader behaves in the same way on all
buffers that agree up to there, and gives up on all that end before.
-/
def LocalFrom (start : ℕ) (reader : List β → Program σ ℤ) : Prop :=
  ∀ (buf : List β) (state after : σ) (result : ℤ), start ≤ buf.length →
    reader buf state = (.ret result, after) → ¬refusal result →
    ∃ reached : ℕ, result = reached ∧ start ≤ reached ∧ reached ≤ buf.length ∧
      (∀ other : List β, reached ≤ other.length → other.take reached = buf.take reached →
        reader other state = (.ret result, after)) ∧
      ∀ cut, start ≤ cut → cut < reached → GivesUp observe refusal (reader (buf.take cut)) state

variable {observe refusal}

theorem LocalFrom.congr {start : ℕ} {reader same : List β → Program σ ℤ}
    (isLocal : LocalFrom observe refusal start reader)
    (agree : ∀ buf, start ≤ buf.length → same buf = reader buf) :
    LocalFrom observe refusal start same := by
  intro buf state after result inside returns accepted
  rw [agree buf inside] at returns
  rcases isLocal buf state after result inside returns accepted with
    ⟨reached, counted, later, within, others, cuts⟩
  refine ⟨reached, counted, later, within, ?_, ?_⟩
  · intro other long agrees
    rw [agree other (by omega)]
    exact others other long agrees
  · intro cut lower upper
    rw [agree _ (by rw [List.length_take]; omega)]
    exact cuts cut lower upper

/-- A program that does not look at the buffer returns the position it is at. -/
theorem localFrom_const {start : ℕ} {program : Program σ ℤ}
    (counted : ∀ state after result, program state = (.ret result, after) → ¬refusal result →
      result = start) : LocalFrom observe refusal start fun _ : List β => program := by
  intro buf state after result inside returns accepted
  refine ⟨start, counted state after result returns accepted, le_rfl, inside, ?_, ?_⟩
  · intro other _ _
    exact returns
  · intro cut lower upper
    omega

/-- Programs that keep what is observed may come before a reader. -/
theorem localFrom_bind {α : Type} {start : ℕ} {first : Program σ α}
    {next : α → List β → Program σ ℤ} (keeps : Keeps observe first)
    (isLocal : ∀ value, LocalFrom observe refusal start (next value)) :
    LocalFrom observe refusal start fun buf => first >>= fun value => next value buf := by
  intro buf state after result inside returns accepted
  rcases Program.bind_eq_ret_iff.mp returns with ⟨value, between, begun, ended⟩
  rcases isLocal value buf between after result inside ended accepted with
    ⟨reached, counted, later, within, others, cuts⟩
  refine ⟨reached, counted, later, within, ?_, ?_⟩
  · intro other long agrees
    exact (Program.bind_of_ret begun).trans (others other long agrees)
  · intro cut lower upper
    rcases cuts cut lower upper with ⟨refused, final, gaveUp, isRefusal, same⟩
    refine ⟨refused, final, ?_, isRefusal, same.trans (keeps.of_ret begun)⟩
    exact (Program.bind_of_ret begun).trans gaveUp

/-- The next entries are fetched after a check that they are there. -/
theorem localFrom_take {start count : ℕ} {next : List β → List β → Program σ ℤ}
    (zero : refusal 0)
    (isLocal : ∀ entries, LocalFrom observe refusal (start + count) (next entries)) :
    LocalFrom observe refusal start fun buf =>
      if start + count ≤ buf.length then next ((buf.drop start).take count) buf else pure 0 := by
  intro buf state after result inside returns accepted
  by_cases room : start + count ≤ buf.length
  · simp only [if_pos room] at returns
    rcases isLocal _ buf state after result room returns accepted with
      ⟨reached, counted, later, within, others, cuts⟩
    have fetched {other : List β} {limit : ℕ} (enough : start + count ≤ limit)
        (agrees : other.take limit = buf.take limit) :
        (other.drop start).take count = (buf.drop start).take count := by
      have same := congrArg (fun entries => (entries.drop start).take count) agrees
      simpa only [List.drop_take, List.take_take, min_eq_left (show count ≤ limit - start by omega)]
        using same
    refine ⟨reached, counted, by omega, within, ?_, ?_⟩
    · intro other long agrees
      simp only [if_pos (show start + count ≤ other.length by omega), fetched later agrees]
      exact others other long agrees
    · intro cut lower upper
      have length : (buf.take cut).length = cut := List.length_take_of_le (by omega)
      by_cases enough : start + count ≤ cut
      · simp only [length, if_pos enough]
        rw [fetched enough (by rw [List.take_take, min_self])]
        exact cuts cut enough upper
      · simp only [length, if_neg enough]
        exact ⟨0, state, rfl, zero, rfl⟩
  · simp only [if_neg room] at returns
    cases returns
    exact absurd zero accepted

section Nested

variable {start : ℕ} {inner : List β → Program σ ℤ} {innerRefusal : ℤ → Prop}

/-- The consumed entries of a reader that is nested at a position. -/
theorem LocalFrom.nested_cases (isLocal : LocalFrom observe innerRefusal 0 inner) {buf : List β}
    {state between : σ} {result : ℤ} (inside : start ≤ buf.length)
    (returns : inner (buf.drop start) state = (.ret result, between))
    (accepted : ¬innerRefusal result) :
    ∃ count : ℕ, result = count ∧ start + count ≤ buf.length ∧
      (∀ (other : List β) (limit : ℕ), start + count ≤ limit → limit ≤ other.length →
        other.take limit = buf.take limit →
        inner (other.drop start) state = (.ret result, between)) ∧
      ∀ cut, start ≤ cut → cut < start + count →
        GivesUp observe innerRefusal (inner ((buf.take cut).drop start)) state := by
  rcases isLocal _ state between result (Nat.zero_le _) returns accepted with
    ⟨count, counted, -, within, others, cuts⟩
  rw [List.length_drop] at within
  refine ⟨count, counted, by omega, ?_, ?_⟩
  · intro other limit enough long agrees
    apply others
    · rw [List.length_drop]
      omega
    · have same := congrArg (fun entries => (entries.drop start).take count) agrees
      simpa only [List.drop_take, List.take_take, min_eq_left (show count ≤ limit - start by omega)]
        using same
  · intro cut lower upper
    rw [List.drop_take]
    exact cuts (cut - start) (Nat.zero_le _) (by omega)

/-- A reader is nested at a position, and another goes on behind what it has consumed. -/
theorem localFrom_nested {resume : ℤ → List β → Program σ ℤ}
    (isLocal : LocalFrom observe innerRefusal 0 inner) (keeps : ∀ buf, Keeps observe (inner buf))
    (stops : ∀ result, innerRefusal result → ∀ buf state,
      GivesUp observe refusal (resume result buf) state)
    (goes : ∀ count : ℕ, ¬innerRefusal count →
      LocalFrom observe refusal (start + count) (resume count)) :
    LocalFrom observe refusal start fun buf =>
      inner (buf.drop start) >>= fun result => resume result buf := by
  intro buf state after result inside returns accepted
  rcases Program.bind_eq_ret_iff.mp returns with ⟨nested, between, begun, ended⟩
  by_cases refused : innerRefusal nested
  · rcases stops nested refused buf between with ⟨other, final, gaveUp, isRefusal, -⟩
    rw [ended, Prod.mk.injEq, Exit.ret.injEq] at gaveUp
    rw [gaveUp.1] at accepted
    exact absurd isRefusal accepted
  · rcases isLocal.nested_cases inside begun refused with ⟨count, rfl, room, again, short⟩
    rcases goes count refused buf between after result room ended accepted with
      ⟨reached, counted, later, within, others, cuts⟩
    refine ⟨reached, counted, by omega, within, ?_, ?_⟩
    · intro other long agrees
      refine (Program.bind_of_ret (again other reached later long agrees)).trans ?_
      exact others other long agrees
    · intro cut lower upper
      by_cases enough : start + count ≤ cut
      · have length : (buf.take cut).length = cut := List.length_take_of_le (by omega)
        have same := again (buf.take cut) cut enough length.ge (by rw [List.take_take, min_self])
        rcases cuts cut enough upper with ⟨other, final, gaveUp, isRefusal, kept⟩
        refine ⟨other, final, ?_, isRefusal, kept.trans ((keeps _).of_ret begun)⟩
        exact (Program.bind_of_ret same).trans gaveUp
      · rcases short cut lower (by omega) with ⟨other, final, gaveUp, isRefusal, kept⟩
        rcases stops other isRefusal (buf.take cut) final with ⟨last, left, stopped, ends, quiet⟩
        refine ⟨last, left, ?_, ends, quiet.trans kept⟩
        exact (Program.bind_of_ret gaveUp).trans stopped

/-- A reader is nested at a position, and its result is converted. -/
theorem localFrom_last {convert : ℤ → Program σ ℤ}
    (isLocal : LocalFrom observe innerRefusal 0 inner)
    (stops : ∀ result, innerRefusal result → ∀ state,
      GivesUp observe refusal (convert result) state)
    (counts : ∀ count : ℕ, ∀ state after result, convert count state = (.ret result, after) →
      ¬refusal result → result = (start + count : ℕ)) :
    LocalFrom observe refusal start fun buf => inner (buf.drop start) >>= convert := by
  intro buf state after result inside returns accepted
  rcases Program.bind_eq_ret_iff.mp returns with ⟨nested, between, begun, ended⟩
  by_cases refused : innerRefusal nested
  · rcases stops nested refused between with ⟨other, final, gaveUp, isRefusal, -⟩
    rw [ended, Prod.mk.injEq, Exit.ret.injEq] at gaveUp
    rw [gaveUp.1] at accepted
    exact absurd isRefusal accepted
  · rcases isLocal.nested_cases inside begun refused with ⟨count, rfl, room, again, short⟩
    refine ⟨start + count, counts count between after result ended accepted, by omega, room,
      ?_, ?_⟩
    · intro other long agrees
      exact (Program.bind_of_ret (again other _ le_rfl long agrees)).trans ended
    · intro cut lower upper
      rcases short cut lower upper with ⟨other, final, gaveUp, isRefusal, kept⟩
      rcases stops other isRefusal final with ⟨last, left, stopped, ends, quiet⟩
      refine ⟨last, left, ?_, ends, quiet.trans kept⟩
      exact (Program.bind_of_ret gaveUp).trans stopped

end Nested

end Readers
