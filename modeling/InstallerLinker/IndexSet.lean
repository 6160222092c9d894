/-
  Installer linker — sets of positions that remember the order of arrival.

  A search marks what it has met, and its result lists what it has met in order.
  An `IndexSet` does both for the positions below a fixed capacity.

  * `contains` reads the mark of a position, `toList` lists the members, the
    first arrival first, and `insert` adds a position that `isFree` of, that is,
    one within the capacity and not yet met;
  * `pending` weighs the positions that are still free, and `pending_insert`
    says that an insertion lowers it by the weight of the new member; this is
    what searches terminate by.
-/

namespace InstallerLinker

/-- A set of positions below a capacity, in the order of their arrival. -/
structure IndexSet where
  /-- Whether each position is a member. -/
  marks : Array Bool
  /-- The members, the first arrival first. -/
  order : Array Nat
  deriving DecidableEq

namespace IndexSet

/-- No member, and room for the positions below `n`. -/
def empty (n : Nat) : IndexSet := ⟨Array.replicate n false, #[]⟩

/-- The number of positions that there is room for. -/
def capacity (s : IndexSet) : Nat := s.marks.size

/-- Whether a position is a member; those beyond the capacity are not. -/
def contains (s : IndexSet) (i : Nat) : Bool := s.marks.getD i false

/-- The members, the first arrival first. -/
def toList (s : IndexSet) : List Nat := s.order.toList

/-- Whether a position is within the capacity and not a member. -/
def isFree (s : IndexSet) (i : Nat) : Bool := !s.marks.getD i true

/-- Make a free position a member. -/
def insert (s : IndexSet) (i : Nat) : IndexSet :=
  if s.isFree i then
    match s with
    | ⟨marks, order⟩ => ⟨marks.setIfInBounds i true, order.push i⟩
  else s

/-! ## Membership -/

theorem isFree_iff (s : IndexSet) (i : Nat) : s.isFree i = true ↔ s.marks[i]? = some false := by
  rw [isFree, Array.getD_eq_getD_getElem?]
  cases s.marks[i]? <;> simp

theorem contains_iff (s : IndexSet) (i : Nat) : s.contains i = true ↔ s.marks[i]? = some true := by
  rw [contains, Array.getD_eq_getD_getElem?]
  cases s.marks[i]? <;> simp

/-- A position is beyond the capacity, a member, or free. -/
theorem isFree_eq (s : IndexSet) (i : Nat) :
    s.isFree i = (decide (i < s.capacity) && !s.contains i) := by
  rw [isFree, contains, Array.getD_eq_getD_getElem?, Array.getD_eq_getD_getElem?, capacity]
  by_cases h : i < s.marks.size
  · simp [h]
  · simp [h]

@[simp] theorem capacity_empty (n : Nat) : (empty n).capacity = n := by simp [empty, capacity]

@[simp] theorem toList_empty (n : Nat) : (empty n).toList = [] := rfl

@[simp] theorem contains_empty (n i : Nat) : (empty n).contains i = false := by
  rw [← Bool.not_eq_true, contains_iff]
  simp [empty, Array.getElem?_replicate]

theorem insert_of_isFree {s : IndexSet} {i : Nat} (h : s.isFree i = true) :
    s.insert i = ⟨s.marks.setIfInBounds i true, s.order.push i⟩ := by
  simp [insert, h]

theorem insert_of_not_isFree {s : IndexSet} {i : Nat} (h : s.isFree i = false) :
    s.insert i = s := by
  simp [insert, h]

@[simp] theorem capacity_insert (s : IndexSet) (i : Nat) : (s.insert i).capacity = s.capacity := by
  cases h : s.isFree i
  · rw [insert_of_not_isFree h]
  · simp [insert_of_isFree h, capacity]

theorem toList_insert (s : IndexSet) (i : Nat) :
    (s.insert i).toList = if s.isFree i then s.toList ++ [i] else s.toList := by
  cases h : s.isFree i
  · simp [insert_of_not_isFree h]
  · simp [insert_of_isFree h, toList]

theorem contains_insert (s : IndexSet) (i j : Nat) :
    (s.insert i).contains j = (s.contains j || (decide (j = i) && s.isFree i)) := by
  cases h : s.isFree i
  · simp [insert_of_not_isFree h]
  · have hi := (isFree_iff s i).1 h
    have hlt : i < s.marks.size := (Array.getElem?_eq_some_iff.1 hi).1
    rw [Bool.eq_iff_iff, contains_iff, insert_of_isFree h, Array.getElem?_setIfInBounds]
    by_cases hj : i = j
    · subst hj
      simp [hlt]
    · simp [hj, contains_iff, Ne.symm hj]

/-! ## The weight of the free positions -/

/-- The weight of the free positions below `n`. -/
def pendingBelow (weight : Nat → Nat) (s : IndexSet) : Nat → Nat
  | 0 => 0
  | n + 1 => pendingBelow weight s n + if s.isFree n then weight n else 0

/-- The weight of all free positions. -/
def pending (weight : Nat → Nat) (s : IndexSet) : Nat := pendingBelow weight s s.capacity

theorem isFree_insert (s : IndexSet) (i j : Nat) :
    (s.insert i).isFree j = (s.isFree j && decide (j ≠ i)) := by
  by_cases hj : j = i
  · subst hj
    rw [isFree_eq, contains_insert, capacity_insert, isFree_eq]
    cases s.contains j <;> simp
  · rw [isFree_eq, contains_insert, capacity_insert, isFree_eq s j]
    simp [hj]

theorem pendingBelow_insert (weight : Nat → Nat) {s : IndexSet} {i : Nat} (h : s.isFree i = true) :
    ∀ n, pendingBelow weight (s.insert i) n + (if i < n then weight i else 0) =
      pendingBelow weight s n
  | 0 => rfl
  | n + 1 => by
    have ih := pendingBelow_insert weight h n
    rw [pendingBelow, pendingBelow, isFree_insert]
    by_cases hn : n = i
    · subst hn
      simp only [Nat.lt_irrefl, if_false] at ih
      simp [h, ← ih]
    · have hlt : i < n + 1 ↔ i < n := by omega
      simp only [hn, hlt, ne_eq, not_false_eq_true, decide_true, Bool.and_true]
      omega

/-- An insertion takes the weight of the new member off the free positions. -/
theorem pending_insert (weight : Nat → Nat) {s : IndexSet} {i : Nat} (h : s.isFree i = true) :
    (s.insert i).pending weight + weight i = s.pending weight := by
  rw [pending, pending, capacity_insert]
  have hlt : i < s.capacity := by
    rw [isFree_eq, Bool.and_eq_true, decide_eq_true_eq] at h
    exact h.1
  have := pendingBelow_insert weight h s.capacity
  rwa [if_pos hlt] at this

end IndexSet

end InstallerLinker
