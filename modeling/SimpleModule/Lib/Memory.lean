import Mathlib

/-!
# Cells addressed by offsets

A block of memory is a total map from integer offsets to cells.  `read`, `write`
and `move` are the effects of reading a range, of `memcpy` and of `memmove`.
Bounds are not part of the map: a client that needs them states them about the
offsets it uses.
-/

namespace Memory

universe u

variable {α : Type u}

/-- The `count` cells from `offset` on. -/
def read (cells : ℤ → α) (offset : ℤ) : ℕ → List α
  | 0 => []
  | count + 1 => cells offset :: read cells (offset + 1) count

/-- Store a sequence of cells from `offset` on. -/
def write (cells : ℤ → α) (offset : ℤ) : List α → ℤ → α
  | [] => cells
  | cell :: rest => Function.update (write cells (offset + 1) rest) offset cell

/-- Copy a range as if through a temporary, so that the ranges may overlap. -/
def move (cells : ℤ → α) (target source : ℤ) (count : ℕ) : ℤ → α :=
  write cells target (read cells source count)

@[simp]
theorem length_read (cells : ℤ → α) (offset : ℤ) (count : ℕ) :
    (read cells offset count).length = count := by
  induction count generalizing offset with
  | zero => rfl
  | succ count ih => simp [read, ih]

theorem read_congr {left right : ℤ → α} {offset : ℤ} {count : ℕ}
    (agree : ∀ index, offset ≤ index → index < offset + count → left index = right index) :
    read left offset count = read right offset count := by
  induction count generalizing offset with
  | zero => rfl
  | succ count ih =>
      simp only [read]
      rw [agree offset le_rfl (by omega)]
      congr 1
      apply ih
      intro index lower upper
      apply agree index <;> omega

theorem read_add (cells : ℤ → α) (offset : ℤ) (first second : ℕ) :
    read cells offset (first + second) =
      read cells offset first ++ read cells (offset + first) second := by
  induction first generalizing offset with
  | zero => simp [read]
  | succ first ih =>
      rw [Nat.add_right_comm]
      simp only [read, List.cons_append, ih]
      congr 3
      omega

/-- A store leaves every cell outside its range unchanged. -/
theorem write_outside {cells : ℤ → α} {offset index : ℤ} {data : List α}
    (outside : index < offset ∨ offset + data.length ≤ index) :
    write cells offset data index = cells index := by
  induction data generalizing offset with
  | nil => rfl
  | cons cell rest ih =>
      simp only [List.length_cons] at outside
      have ne : index ≠ offset := by omega
      simp only [write, Function.update_of_ne ne]
      apply ih
      omega

theorem read_write_outside {cells : ℤ → α} {offset target : ℤ} {count : ℕ} {data : List α}
    (outside : offset + count ≤ target ∨ target + data.length ≤ offset) :
    read (write cells target data) offset count = read cells offset count := by
  apply read_congr
  intro index lower upper
  apply write_outside
  omega

theorem read_write (cells : ℤ → α) (offset : ℤ) (data : List α) :
    read (write cells offset data) offset data.length = data := by
  induction data generalizing offset with
  | nil => rfl
  | cons cell rest ih =>
      have rest_eq : read (write cells offset (cell :: rest)) (offset + 1) rest.length = rest := by
        have agree : ∀ index, offset + 1 ≤ index → index < offset + 1 + rest.length →
            write cells offset (cell :: rest) index = write cells (offset + 1) rest index := by
          intro index lower _
          exact Function.update_of_ne (by omega) _ _
        rw [read_congr agree, ih]
      simp only [List.length_cons, read, rest_eq]
      simp [write]

theorem read_move (cells : ℤ → α) (target source : ℤ) (count : ℕ) :
    read (move cells target source count) target count = read cells source count := by
  have stored := read_write cells target (read cells source count)
  rwa [length_read] at stored

theorem read_write_append {cells : ℤ → α} {offset : ℤ} {queue data : List α}
    (holds : read cells offset queue.length = queue) :
    read (write cells (offset + queue.length) data) offset (queue ++ data).length =
      queue ++ data := by
  rw [List.length_append, read_add, read_write_outside (Or.inl le_rfl), holds, read_write]

theorem read_take {cells : ℤ → α} {offset : ℤ} {queue : List α} (count : ℕ)
    (short : count ≤ queue.length) (holds : read cells offset queue.length = queue) :
    read cells offset count = queue.take count := by
  have split : queue.length = count + (queue.length - count) := by omega
  rw [split, read_add] at holds
  rw [← holds, List.take_left' (length_read _ _ _)]

theorem read_drop {cells : ℤ → α} {offset : ℤ} {queue : List α} (count : ℕ)
    (short : count ≤ queue.length) (holds : read cells offset queue.length = queue) :
    read cells (offset + count) (queue.drop count).length = queue.drop count := by
  have split : queue.length = count + (queue.length - count) := by omega
  rw [split, read_add] at holds
  rw [List.length_drop]
  conv_rhs => rw [← holds, List.drop_left' (length_read _ _ _)]

end Memory
