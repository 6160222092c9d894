/-
  Installer linker — cycles as lists that can be turned.

  The list of a cycle may begin anywhere on it, so a cycle has as many lists as
  positions.  They are turns of each other, and the one that begins with the
  smallest position stands for them all.

  * `IsLeastTurn` says what that turn is, and `canonicalRotation_eq_iff_isLeastTurn`
    that it is the one that `canonicalRotation` gives;
  * `canonicalRotation_eq_iff` says that two cycles have it in common exactly if one
    is a turn of the other;
  * `canonicalRotation_represents` puts together why this recognises a cycle.
-/
import Mathlib.Data.List.Rotate
import Mathlib.Order.Bounds.Basic
import InstallerLinker.PrecedenceGraph.Cycle

namespace InstallerLinker

variable {cycle cycle' turned : List Nat}

/-! ## The turn that is computed -/

theorem canonicalRotation_isRotated (cycle : List Nat) : canonicalRotation cycle ~r cycle := by
  unfold canonicalRotation
  split
  · next hnone => rw [List.min?_eq_none_iff.1 hnone]
  · next m _ =>
    have h : cycle.dropWhile (· != m) ++ cycle.takeWhile (· != m) ~r
        cycle.takeWhile (· != m) ++ cycle.dropWhile (· != m) := List.isRotated_append
    rwa [List.takeWhile_append_dropWhile] at h

/-- It begins with the smallest position. -/
theorem head?_canonicalRotation (cycle : List Nat) :
    (canonicalRotation cycle).head? = cycle.min? := by
  unfold canonicalRotation
  split
  · next hnone => rw [hnone, List.head?_nil]
  · next m hm =>
    obtain ⟨s, t, rfl, hs⟩ := List.eq_append_cons_of_mem (List.min?_mem hm)
    have hbefore : ∀ i ∈ s, (i != m) = true := fun i hi => bne_iff_ne.2 fun h => hs (h ▸ hi)
    rw [List.dropWhile_append_of_pos hbefore, List.dropWhile_cons_of_neg (by simp), hm,
      List.cons_append, List.head?_cons]

/-! ## Turns with one beginning -/

/-- Turns of a list without repetition that begin alike are equal. -/
theorem eq_of_isRotated_of_head?_eq {l l' : List Nat} (hnodup : l.Nodup) (h : l ~r l')
    (hhead : l.head? = l'.head?) : l = l' := by
  obtain ⟨n, hn, rfl⟩ := List.isRotated_iff_mod.1 h
  rcases Nat.lt_or_eq_of_le hn with hlt | rfl
  · rw [List.head?_rotate hlt, List.head?_eq_getElem?] at hhead
    have hzero := (List.getElem?_inj (Nat.lt_of_le_of_lt (Nat.zero_le n) hlt) hnodup).1 hhead
    rw [← hzero, List.rotate_zero]
  · rw [List.rotate_length]

theorem min?_eq_of_isRotated {l l' : List Nat} (h : l ~r l') : l.min? = l'.min? := by
  refine Option.ext fun m => ?_
  rw [List.min?_eq_some_iff, List.min?_eq_some_iff, h.mem_iff]
  simp only [h.mem_iff]

theorem canonicalRotation_eq_iff (hnodup : cycle.Nodup) :
    canonicalRotation cycle = canonicalRotation cycle' ↔ cycle ~r cycle' := by
  have hcycle := canonicalRotation_isRotated cycle
  have hcycle' := canonicalRotation_isRotated cycle'
  constructor
  · intro h
    rw [h] at hcycle
    exact hcycle.symm.trans hcycle'
  · intro h
    refine eq_of_isRotated_of_head?_eq (hcycle.nodup_iff.2 hnodup)
      ((hcycle.trans h).trans hcycle'.symm) ?_
    rw [head?_canonicalRotation, head?_canonicalRotation, min?_eq_of_isRotated h]

/-! ## The turn that stands for a cycle -/

/-- A turn of the cycle that begins with its smallest position. -/
structure IsLeastTurn (cycle turned : List Nat) : Prop where
  isRotated : turned ~r cycle
  begins : ∃ m, turned.head? = some m ∧ IsLeast {i | i ∈ cycle} m

theorem isLeastTurn_canonicalRotation (hne : cycle ≠ []) :
    IsLeastTurn cycle (canonicalRotation cycle) where
  isRotated := canonicalRotation_isRotated cycle
  begins := by
    obtain ⟨m, hm⟩ := Option.ne_none_iff_exists'.1 (mt List.min?_eq_none_iff.1 hne)
    obtain ⟨hmem, hle⟩ := List.min?_eq_some_iff.1 hm
    exact ⟨m, (head?_canonicalRotation cycle).trans hm, hmem, fun _ => hle _⟩

/-- Without repetition there is only one. -/
theorem IsLeastTurn.unique (hnodup : cycle.Nodup) (h : IsLeastTurn cycle turned)
    {turned' : List Nat} (h' : IsLeastTurn cycle turned') : turned = turned' := by
  obtain ⟨m, hm, hleast⟩ := h.begins
  obtain ⟨m', hm', hleast'⟩ := h'.begins
  refine eq_of_isRotated_of_head?_eq (h.isRotated.nodup_iff.2 hnodup)
    (h.isRotated.trans h'.isRotated.symm) ?_
  rw [hm, hm', hleast.unique hleast']

theorem canonicalRotation_eq_iff_isLeastTurn (hne : cycle ≠ []) (hnodup : cycle.Nodup) :
    canonicalRotation cycle = turned ↔ IsLeastTurn cycle turned := by
  have hleast := isLeastTurn_canonicalRotation hne
  exact ⟨fun h => h ▸ hleast, hleast.unique hnodup⟩

/-- **The turn that stands for a cycle.**  Two cycles have the same canonical turn
    exactly if one is a turn of the other.  It is the turn that begins with the
    smallest position, and the only one that does; to take it again, or of the cycle
    turned by any number of positions, changes nothing. -/
theorem canonicalRotation_represents (hne : cycle ≠ []) (hnodup : cycle.Nodup) :
    (∀ cycle', canonicalRotation cycle = canonicalRotation cycle' ↔ cycle ~r cycle') ∧
      (∀ turned, canonicalRotation cycle = turned ↔ IsLeastTurn cycle turned) ∧
      canonicalRotation (canonicalRotation cycle) = canonicalRotation cycle ∧
      ∀ n, canonicalRotation (cycle.rotate n) = canonicalRotation cycle := by
  have hiff : ∀ cycle', canonicalRotation cycle = canonicalRotation cycle' ↔ cycle ~r cycle' :=
    fun _ => canonicalRotation_eq_iff hnodup
  refine ⟨hiff, fun _ => canonicalRotation_eq_iff_isLeastTurn hne hnodup, ?_, fun n => ?_⟩
  · exact ((hiff _).2 (canonicalRotation_isRotated cycle).symm).symm
  · exact ((hiff _).2 ⟨n, rfl⟩).symm

/-- Three positions in a circle; the same ones the other way round are another cycle. -/
theorem canonicalRotation_threePositions :
    [3, 1, 2] ≠ [] ∧ [3, 1, 2].Nodup ∧ canonicalRotation [3, 1, 2] = canonicalRotation [2, 3, 1] ∧
      canonicalRotation [3, 1, 2] ≠ canonicalRotation [2, 1, 3] ∧
      IsLeastTurn [3, 1, 2] [1, 2, 3] := by
  have hne : [3, 1, 2] ≠ [] := by decide
  have hnodup : [3, 1, 2].Nodup := by decide
  obtain ⟨hsame, hleast, -, -⟩ := canonicalRotation_represents hne hnodup
  refine ⟨hne, hnodup, (hsame _).2 ⟨2, rfl⟩, fun h => ?_, (hleast _).1 (by decide)⟩
  exact absurd ((hsame _).1 h) (by decide)

end InstallerLinker
