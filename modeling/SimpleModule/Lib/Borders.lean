import Mathlib

/-!
# Borders

A border of a set of positive numbers is a member whose successor is no member, or zero if one
is no member.  A set without holes has exactly one border.  A set with holes has several, and
which one a search finds depends on where it looks: in halves, in doubling steps, or one by one.
-/

namespace SimpleModule

namespace Borders

variable {present : ℕ → Bool}

/-- The number is zero or a member, and its successor is none. -/
def IsBorder (present : ℕ → Bool) (border : ℕ) : Prop :=
  (border = 0 ∨ present border = true) ∧ present (border + 1) = false

/-- Every border of the numbers up to a bound is the bound. -/
theorem IsBorder.eq_of_filled {border count : ℕ} (isBorder : IsBorder present border)
    (filled : ∀ number, number < count → present (number + 1) = true)
    (empty : ∀ number, count ≤ number → present (number + 1) = false) : border = count := by
  rcases isBorder with ⟨member, missing⟩
  rcases lt_trichotomy border count with below | same | above
  · rw [filled border below] at missing
    cases missing
  · exact same
  · rcases border with _ | border
    · omega
    · rcases member with zero | found
      · omega
      · rw [empty border (by omega)] at found
        cases found

/-! ## Halves -/

/-- The search between a border's candidate and a number that is no member. -/
def bisect (present : ℕ → Bool) : (fuel i j : ℕ) → ℕ
  | 0, i, _ => i
  | fuel + 1, i, j =>
      if j - i > 1 then
        let m := (i + j) / 2
        if present m then bisect present fuel m j else bisect present fuel i m
      else i

theorem isBorder_bisect {fuel i j : ℕ} (enough : j ≤ i + fuel) (apart : i < j)
    (member : i = 0 ∨ present i = true) (missing : present j = false) :
    IsBorder present (bisect present fuel i j) := by
  induction fuel generalizing i j with
  | zero => omega
  | succ fuel ih =>
      rw [bisect]
      split_ifs with wide
      · by_cases middle : present ((i + j) / 2) = true
        · rw [if_pos middle]
          exact ih (by omega) (by omega) (.inr middle) missing
        · rw [if_neg middle]
          exact ih (by omega) (by omega) member (Bool.not_eq_true _ ▸ middle)
      · have next : j = i + 1 := by omega
        exact ⟨member, next ▸ missing⟩

/-! ## One by one -/

/-- The first number from `start` on whose successor is no member. -/
def firstFrom (present : ℕ → Bool) : (fuel start : ℕ) → ℕ
  | 0, start => start
  | fuel + 1, start => if present (start + 1) then firstFrom present fuel (start + 1) else start

theorem isBorder_firstFrom {fuel start : ℕ} (member : start = 0 ∨ present start = true)
    (missing : ∃ gap, gap ≤ fuel ∧ present (start + gap + 1) = false) :
    IsBorder present (firstFrom present fuel start) := by
  induction fuel generalizing start with
  | zero =>
      rcases missing with ⟨gap, within, missing⟩
      obtain rfl : gap = 0 := by omega
      exact ⟨member, missing⟩
  | succ fuel ih =>
      rw [firstFrom]
      split_ifs with here
      · rcases missing with ⟨gap, within, missing⟩
        rcases gap with _ | gap
        · rw [Nat.add_zero, here] at missing
          cases missing
        · apply ih (.inr here)
          exact ⟨gap, by omega, by rw [← missing]; congr 1; omega⟩
      · exact ⟨member, Bool.not_eq_true _ ▸ here⟩

/-! ## Doubling steps -/

/--
The search from `i`, which is zero or a member, in doubling steps and then in halves.  Beyond
the limit it starts again one by one, for at most `bound` numbers.
-/
def gallop (present : ℕ → Bool) (limit bound : ℕ) : (fuel i j : ℕ) → ℕ
  | 0, _, _ => firstFrom present bound 0
  | fuel + 1, i, j =>
      if present j then
        if 2 * j > limit then firstFrom present bound 0
        else gallop present limit bound fuel j (2 * j)
      else bisect present j i j

theorem isBorder_gallop {limit bound fuel i j : ℕ} (apart : i < j)
    (member : i = 0 ∨ present i = true)
    (missing : ∃ gap, gap ≤ bound ∧ present (gap + 1) = false) :
    IsBorder present (gallop present limit bound fuel i j) := by
  have oneByOne : IsBorder present (firstFrom present bound 0) := by
    apply isBorder_firstFrom (.inl rfl)
    simpa using missing
  induction fuel generalizing i j with
  | zero => exact oneByOne
  | succ fuel ih =>
      rw [gallop]
      split_ifs with here beyond
      · exact oneByOne
      · exact ih (by omega) (.inr here)
      · exact isBorder_bisect (by omega) apart member (Bool.not_eq_true _ ▸ here)

end Borders

end SimpleModule
