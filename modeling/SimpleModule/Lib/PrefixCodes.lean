import Mathlib.Data.List.Infix
import Mathlib.Data.Set.Basic

/-!
# Prefix codes

Words that are written one after the other without separators can be told apart if no word
is written as the beginning of another one.  Words may be escaped: a mark in front of a word
makes another word of it, and again.
-/

namespace SimpleModule

namespace PrefixCodes

variable {α β : Type} {code : α → List β} {words : Set α}

/-- No word is written as the beginning of another one. -/
def PrefixFree (code : α → List β) (words : Set α) : Prop :=
  ∀ word ∈ words, ∀ other ∈ words, code word <+: code other → word = other

/-- The first word can be told from what follows. -/
theorem PrefixFree.split (free : PrefixFree code words) {word other : α} (member : word ∈ words)
    (member' : other ∈ words) {rest more : List β}
    (same : code word ++ rest = code other ++ more) : word = other ∧ rest = more := by
  have here : code word <+: code other ++ more := ⟨rest, same⟩
  have equal : word = other := by
    rcases List.prefix_or_prefix_of_prefix here (List.prefix_append _ _) with shorter | longer
    · exact free word member other member' shorter
    · exact (free other member' word member longer).symm
  subst equal
  exact ⟨rfl, List.append_cancel_left same⟩

/-- Lists of words can be told apart. -/
theorem PrefixFree.flatMap_inj (free : PrefixFree code words)
    (written : ∀ word ∈ words, code word ≠ []) {left right : List α}
    (among : ∀ word ∈ left, word ∈ words) (among' : ∀ word ∈ right, word ∈ words)
    (same : left.flatMap code = right.flatMap code) : left = right := by
  induction left generalizing right with
  | nil =>
      cases right with
      | nil => rfl
      | cons other right =>
          have empty := (List.append_eq_nil_iff.mp same.symm).1
          exact absurd empty (written other (among' other List.mem_cons_self))
  | cons word left ih =>
      cases right with
      | nil =>
          have empty := (List.append_eq_nil_iff.mp same).1
          exact absurd empty (written word (among word List.mem_cons_self))
      | cons other right =>
          rcases free.split (among word List.mem_cons_self) (among' other List.mem_cons_self) same
            with ⟨rfl, rest⟩
          rw [ih (fun word member => among word (List.mem_cons_of_mem _ member))
            (fun word member => among' word (List.mem_cons_of_mem _ member)) rest]

/-! ## Escaped words -/

/-- A word behind some marks. -/
def escaped (mark : List β) (code : α → List β) (entry : ℕ × α) : List β :=
  (List.replicate entry.1 mark).flatten ++ code entry.2

theorem escaped_succ (mark : List β) (code : α → List β) (depth : ℕ) (word : α) :
    escaped mark code (depth + 1, word) = mark ++ escaped mark code (depth, word) := by
  rw [escaped, List.replicate_succ, List.flatten_cons, List.append_assoc]
  rfl

/-- Marks keep words apart, if no word can be taken for a mark. -/
theorem PrefixFree.escaped {mark : List β} (free : PrefixFree code words)
    (apart : ∀ word ∈ words, ¬mark <+: code word ∧ ¬code word <+: mark) :
    PrefixFree (escaped mark code) {entry | entry.2 ∈ words} := by
  rintro ⟨depth, word⟩ member ⟨height, other⟩ member' inside
  induction depth generalizing height with
  | zero =>
      cases height with
      | zero => rw [free word member other member' inside]
      | succ height =>
          rw [escaped_succ] at inside
          rcases List.prefix_or_prefix_of_prefix inside (List.prefix_append _ _) with
            within | beyond
          · exact absurd within (apart word member).2
          · exact absurd beyond (apart word member).1
  | succ depth ih =>
      rw [escaped_succ] at inside
      cases height with
      | zero =>
          have marked : mark <+: code other := (List.prefix_append _ _).trans inside
          exact absurd marked (apart other member').1
      | succ height =>
          rw [escaped_succ, List.prefix_append_right_inj] at inside
          have later := ih member height member' inside
          cases later
          rfl

end PrefixCodes

end SimpleModule
