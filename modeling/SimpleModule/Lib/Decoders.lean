import Mathlib.Data.List.Basic

/-!
# Decoders

A decoder reads a value from the front of its input and tells how long the front is, or
reads nothing.  Decoders of lists are put behind each other with `append`, which is
associative and has the decoder of the empty list as its unit.

A decoder reads a front exactly if it gives the same result whatever follows.  What comes
behind an exact front is determined by the whole: this is the cancellation rule that is
used to compare two decoders piece by piece.
-/

namespace Decoders

universe u v w

/-- What is read from a front of the input, and the length of the front. -/
abbrev Decoder (σ : Type u) (α : Type v) := List σ → Option (α × ℕ)

namespace Decoder

variable {σ : Type u} {α : Type v} {β : Type w}

/-- The decoder that reads nothing and gives a result. -/
def give (result : α) : Decoder σ α := fun _ => some (result, 0)

/-- The same front with another result. -/
def mapped (f : α → β) (decoder : Decoder σ α) : Decoder σ β := fun input =>
  (decoder input).map fun (result, consumed) => (f result, consumed)

/-- One decoder and then the other, each with a list of results. -/
def append (first second : Decoder σ (List α)) : Decoder σ (List α) := fun input =>
  (first input).bind fun (front, consumed) =>
    (second (input.drop consumed)).map fun (back, later) => (front ++ back, consumed + later)

theorem mapped_eq_some {f : α → β} {decoder : Decoder σ α} {input : List σ} {result : β}
    {consumed : ℕ} : decoder.mapped f input = some (result, consumed) ↔
      ∃ value, decoder input = some (value, consumed) ∧ f value = result := by
  simp [mapped]

theorem mapped_mapped {γ : Type*} (g : β → γ) (f : α → β) (decoder : Decoder σ α) :
    (decoder.mapped f).mapped g = decoder.mapped fun value => g (f value) := by
  funext input
  simp [mapped, Function.comp_def]

theorem append_eq_some {first second : Decoder σ (List α)} {input : List σ} {results : List α}
    {total : ℕ} : first.append second input = some (results, total) ↔
      ∃ front consumed back later, first input = some (front, consumed) ∧
        second (input.drop consumed) = some (back, later) ∧ front ++ back = results ∧
        consumed + later = total := by
  constructor
  · intro read
    rcases Option.bind_eq_some_iff.mp read with ⟨⟨front, consumed⟩, here, mapped⟩
    rcases Option.map_eq_some_iff.mp mapped with ⟨⟨back, later⟩, behind, same⟩
    cases same
    exact ⟨front, consumed, back, later, here, behind, rfl, rfl⟩
  · rintro ⟨front, consumed, back, later, here, behind, rfl, rfl⟩
    simp only [append, here, Option.bind_some, behind, Option.map_some]

theorem give_append (second : Decoder σ (List α)) : (give []).append second = second := by
  funext input
  simp [append, give]

theorem append_give (first : Decoder σ (List α)) : first.append (give []) = first := by
  funext input
  rcases read : first input with _ | ⟨front, consumed⟩
  · simp [append, read]
  · simp [append, give, read]

theorem append_assoc (first second third : Decoder σ (List α)) :
    (first.append second).append third = first.append (second.append third) := by
  funext input
  rcases here : first input with _ | ⟨front, consumed⟩
  · simp [append, here]
  · rcases behind : second (input.drop consumed) with _ | ⟨back, later⟩
    · simp [append, here, behind]
    · simp only [append, here, behind, Option.bind_some, Option.map_some, List.drop_drop,
        Option.map_map]
      congr 1
      funext ⟨last, final⟩
      simp [Nat.add_assoc]

theorem mapped_append {f : List α → List β}
    (distributes : ∀ front back, f (front ++ back) = f front ++ f back)
    (first second : Decoder σ (List α)) :
    (first.append second).mapped f = (first.mapped f).append (second.mapped f) := by
  funext input
  rcases here : first input with _ | ⟨front, consumed⟩
  · simp [append, mapped, here]
  · rcases behind : second (input.drop consumed) with _ | ⟨back, later⟩
    · simp [append, mapped, here, behind]
    · simp [append, mapped, here, behind, distributes]

/-! ## Exact fronts -/

/-- The decoder reads the front, and nothing else, whatever follows. -/
def Exact (decoder : Decoder σ α) (front : List σ) (result : α) : Prop :=
  ∀ rest, decoder (front ++ rest) = some (result, front.length)

theorem exact_give (result : α) : Exact (give result : Decoder σ α) [] result := fun _ => rfl

theorem Exact.mapped {decoder : Decoder σ α} {front : List σ} {result : α}
    (exact : decoder.Exact front result) (f : α → β) :
    (decoder.mapped f).Exact front (f result) := by
  intro rest
  rw [Decoder.mapped, exact rest, Option.map_some]

theorem append_of_exact {first : Decoder σ (List α)} {front : List σ} {results : List α}
    (exact : first.Exact front results) (second : Decoder σ (List α)) (rest : List σ) :
    first.append second (front ++ rest) =
      (second rest).map fun (back, later) => (results ++ back, front.length + later) := by
  simp only [append, exact rest, Option.bind_some, List.drop_left]

theorem Exact.append {first second : Decoder σ (List α)} {front back : List σ}
    {results others : List α} (exact : first.Exact front results)
    (behind : second.Exact back others) :
    (first.append second).Exact (front ++ back) (results ++ others) := by
  intro rest
  rw [List.append_assoc, append_of_exact exact, behind rest]
  simp

/-- Two decoders that agree are equal behind a front that both read in the same way. -/
theorem append_cancel {first other second third : Decoder σ (List α)} {front : List σ}
    {results : List α} (exact : first.Exact front results) (same : other.Exact front results)
    (agree : first.append second = other.append third) : second = third := by
  funext rest
  have here := congrFun agree (front ++ rest)
  rw [append_of_exact exact, append_of_exact same] at here
  apply Option.map_injective _ here
  rintro ⟨back, later⟩ ⟨others, further⟩ equal
  simp only [Prod.mk.injEq, List.append_cancel_left_eq, Nat.add_left_cancel_iff] at equal
  exact Prod.ext equal.1 equal.2

end Decoder

end Decoders
