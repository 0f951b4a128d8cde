import Mathlib

/-!
# Ordered maps with iterators

A map as the C++ library has it: the entries are kept in the order of their keys, and an
iterator is either the end of the map or stands at an entry.  Erasing an entry invalidates
the iterators that stand at it and no others.

While nothing is inserted, an iterator can be given by the key of its entry: it is valid as
long as the map has that key, and the entry after it is the first one with a larger key.
-/

universe u v

/-- A map with its entries in the order of their keys. -/
structure OrderedMap (κ : Type u) (α : Type v) [LinearOrder κ] where
  entries : List (κ × α)
  sorted : entries.Pairwise fun left right => left.1 < right.1

namespace OrderedMap

variable {κ : Type u} {α : Type v} [LinearOrder κ]

/-- The value that is stored under a key. -/
def find (map : OrderedMap κ α) (key : κ) : Option α :=
  (map.entries.find? fun entry => entry.1 = key).map Prod.snd

/-- The map without the entry of a key, if it has one. -/
def erase (map : OrderedMap κ α) (key : κ) : OrderedMap κ α where
  entries := map.entries.filter fun entry => entry.1 ≠ key
  sorted := map.sorted.filter _

/-- The iterator at the first entry; `none` is the end of the map. -/
def first (map : OrderedMap κ α) : Option κ := map.entries.head?.map Prod.fst

/-- The iterator after a given one, unless the entry of that one is not in the map. -/
def next (map : OrderedMap κ α) (iterator : κ) : Option (Option κ) :=
  if (map.find iterator).isSome then
    some ((map.entries.find? fun entry => iterator < entry.1).map Prod.fst)
  else none

/-- The map that takes the values of a function at finitely many keys. -/
def ofFinset (keys : Finset κ) (value : κ → Option α) : OrderedMap κ α where
  entries := (keys.sort (· ≤ ·)).filterMap fun key => (value key).map fun found => (key, found)
  sorted := by
    apply (Finset.sortedLT_sort keys).pairwise.filterMap
    intro left right less entry fromLeft other fromRight
    simp only [Option.map_eq_some_iff] at fromLeft fromRight
    rcases fromLeft with ⟨_, -, rfl⟩
    rcases fromRight with ⟨_, -, rfl⟩
    exact less

/-! ## Lookup -/

/-- A key has at most one entry, so that a lookup finds exactly the entries. -/
theorem find_eq_some_iff {map : OrderedMap κ α} {key : κ} {value : α} :
    map.find key = some value ↔ (key, value) ∈ map.entries := by
  rcases map with ⟨entries, sorted⟩
  simp only [find]
  induction entries with
  | nil => simp
  | cons entry rest ih =>
      rcases List.pairwise_cons.mp sorted with ⟨below, later⟩
      rcases entry with ⟨other, stored⟩
      by_cases same : other = key
      · subst same
        have absent : (other, value) ∉ rest := by
          intro member
          exact lt_irrefl other (below (other, value) member)
        simp [absent, eq_comm]
      · have different : (key, value) ≠ (other, stored) := by
          intro equal
          exact same (congrArg Prod.fst equal).symm
        rw [List.find?_cons_of_neg (by simpa using same), ih later, List.mem_cons]
        simp [different]

theorem find_erase (map : OrderedMap κ α) (key : κ) :
    (map.erase key).find = Function.update map.find key none := by
  funext other
  apply Option.ext
  intro value
  rw [find_eq_some_iff]
  by_cases same : other = key
  · simp [erase, same]
  · rw [Function.update_of_ne same, find_eq_some_iff]
    simp [erase, same]

theorem find_ofFinset {keys : Finset κ} {value : κ → Option α}
    (outside : ∀ key, key ∉ keys → value key = none) : (ofFinset keys value).find = value := by
  funext key
  apply Option.ext
  intro found
  rw [find_eq_some_iff]
  simp only [ofFinset, List.mem_filterMap, Finset.mem_sort, Option.map_eq_some_iff,
    Prod.mk.injEq]
  constructor
  · rintro ⟨_, -, _, stored, rfl, rfl⟩
    exact stored
  · intro stored
    have member : key ∈ keys := by
      by_contra absent
      rw [outside key absent] at stored
      cases stored
    exact ⟨key, member, found, stored, rfl, rfl⟩

/-! ## Iterators -/

/-- The entry at which an iterator stands, and what is before and behind it. -/
theorem next_of_split {map : OrderedMap κ α} {visited rest : List (κ × α)} {entry : κ × α}
    (split : map.entries = visited ++ entry :: rest) :
    map.next entry.1 = some (rest.head?.map Prod.fst) := by
  have sorted := map.sorted
  rw [split, List.pairwise_append, List.pairwise_cons] at sorted
  rcases sorted with ⟨-, ⟨behind, -⟩, before⟩
  have found : (map.find entry.1).isSome := by
    apply Option.isSome_iff_exists.mpr
    refine ⟨entry.2, find_eq_some_iff.mpr ?_⟩
    rw [split]
    exact List.mem_append_right _ (List.mem_cons_self ..)
  have notBefore : visited.find? (fun other => entry.1 < other.1) = none := by
    apply List.find?_eq_none.mpr
    intro other member
    have less := before other member entry (List.mem_cons_self ..)
    simpa using less.le
  have firstBehind : rest.find? (fun other => entry.1 < other.1) = rest.head? := by
    cases rest with
    | nil => rfl
    | cons other later =>
        rw [List.find?_cons_of_pos (by simpa using behind other (List.mem_cons_self ..))]
        rfl
  rw [next, if_pos found, split, List.find?_append, notBefore, Option.none_or,
    List.find?_cons_of_neg (by simp), firstBehind]

/-- An iterator at an erased entry cannot be advanced. -/
theorem next_erase (map : OrderedMap κ α) (key : κ) : (map.erase key).next key = none := by
  simp [next, find_erase]

end OrderedMap
