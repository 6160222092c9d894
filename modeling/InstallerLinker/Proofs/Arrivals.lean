/-
  Installer linker — the two views of an index set.

  An `IndexSet` keeps a mark for each position and a list of its members.  Only
  `empty` and `insert` build one, and they keep the two in agreement
  (`Consistent`), so that results about the marks hold of the list as well.  What
  an insertion takes off the weight of the free positions it adds to the weight of
  the members (`pending_add_sum_insert`).
-/
import Mathlib.Algebra.GroupWithZero.Nat
import Mathlib.Data.List.Nodup
import InstallerLinker.IndexSet

namespace InstallerLinker.IndexSet

variable {s : IndexSet}

/-- The list holds exactly the marked positions, each of them once. -/
structure Consistent (s : IndexSet) : Prop where
  nodup : s.toList.Nodup
  mem_iff : ∀ i, i ∈ s.toList ↔ s.contains i = true

theorem isFree_eq_true_iff (i : Nat) :
    s.isFree i = true ↔ i < s.capacity ∧ s.contains i = false := by
  rw [isFree_eq, Bool.and_eq_true, decide_eq_true_eq, Bool.not_eq_true']

theorem contains_insert_iff (i j : Nat) :
    (s.insert i).contains j = true ↔ s.contains j = true ∨ (j = i ∧ i < s.capacity) := by
  rw [contains_insert, Bool.or_eq_true, Bool.and_eq_true, decide_eq_true_eq, isFree_eq_true_iff]
  constructor
  · rintro (h | ⟨rfl, h, -⟩)
    · exact Or.inl h
    · exact Or.inr ⟨rfl, h⟩
  · rintro (h | ⟨rfl, h⟩)
    · exact Or.inl h
    · cases hc : s.contains j
      · exact Or.inr ⟨rfl, h, rfl⟩
      · exact Or.inl rfl

theorem contains_insert_of_isFree {i : Nat} (h : s.isFree i = true) (j : Nat) :
    (s.insert i).contains j = true ↔ s.contains j = true ∨ j = i := by
  rw [contains_insert_iff]
  exact or_congr_right ⟨fun hj => hj.1, fun hj => ⟨hj, ((isFree_eq_true_iff i).1 h).1⟩⟩

theorem contains_insert_of_contains {i : Nat} (j : Nat) (h : s.contains i = true) :
    (s.insert j).contains i = true :=
  (contains_insert_iff j i).2 (Or.inl h)

theorem contains_of_not_isFree {i : Nat} (hi : i < s.capacity) (h : s.isFree i = false) :
    s.contains i = true := by
  rw [isFree_eq, decide_eq_true hi, Bool.true_and] at h
  simpa using h

theorem toList_prefix_insert (s : IndexSet) (i : Nat) : s.toList <+: (s.insert i).toList := by
  rw [toList_insert]
  split
  · exact List.prefix_append _ _
  · exact List.prefix_rfl

theorem toList_insert_empty {n i : Nat} (h : i < n) : ((empty n).insert i).toList = [i] := by
  rw [toList_insert, if_pos ((isFree_eq_true_iff i).2 (by simpa using h))]
  rfl

theorem Consistent.isFree_iff (h : s.Consistent) {i : Nat} :
    s.isFree i = true ↔ i < s.capacity ∧ i ∉ s.toList := by
  rw [isFree_eq_true_iff, h.mem_iff, Bool.not_eq_true]

theorem consistent_empty (n : Nat) : (empty n).Consistent :=
  ⟨List.nodup_nil, fun i => by simp⟩

theorem Consistent.insert (h : s.Consistent) (i : Nat) : (s.insert i).Consistent := by
  cases hf : s.isFree i with
  | false => rwa [insert_of_not_isFree hf]
  | true =>
    have hc := ((isFree_eq_true_iff i).1 hf).2
    have hi : i ∉ s.toList := by rw [h.mem_iff, hc]; exact Bool.false_ne_true
    have hl : (s.insert i).toList = s.toList ++ [i] := by rw [toList_insert, if_pos hf]
    refine ⟨?_, fun j => ?_⟩
    · rw [hl, ← List.concat_eq_append]
      exact h.nodup.concat hi
    · rw [hl, contains_insert_of_isFree hf, List.mem_append, h.mem_iff, List.mem_singleton]

/-! ## The weight of the members -/

/-- An insertion moves the weight of the new member from the free positions to the
    members, and does nothing if the position is not free. -/
theorem pending_add_sum_insert (weight : Nat → Nat) (s : IndexSet) (i : Nat) :
    (s.insert i).pending weight + ((s.insert i).toList.map weight).sum =
      s.pending weight + (s.toList.map weight).sum := by
  cases h : s.isFree i with
  | false => rw [insert_of_not_isFree h]
  | true =>
    have hp := pending_insert weight h
    rw [toList_insert, if_pos h, List.map_append, List.sum_append, List.map_singleton,
      List.sum_singleton]
    omega

end InstallerLinker.IndexSet
