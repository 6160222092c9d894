/-
  Installer linker — what closing a graph changes.

  Closing a graph adds constraints from one position after the other, so that
  most searches run on a graph that is partly closed.  That does not matter: what
  is added changes neither the ids nor what leads to what.

  * `Exploring` is the invariant of the search along the constraints, and
    `mem_reachable_iff` says what it finds;
  * `Extends` relates a graph to one with more constraints but the same
    consequences, and `Coherent.closeAt` says that each step leads to such a
    graph;
  * `close_steps` is the induction over the positions that are closed, and
    `Coherent.close` the same for the whole closure.
-/
import InstallerLinker.PrecedenceGraph.Closure
import InstallerLinker.Proofs.PrecedenceGraph.CycleSearch

namespace InstallerLinker.PrecedenceGraph
open Relation

variable {g : PrecedenceGraph} {i : Nat}

/-! ## The search -/

/-- A search from `i`: what has been seen leads to what has been seen or is
    pending, and `i` leads to all of it. -/
structure Exploring (g : PrecedenceGraph) (i : Nat) (seen : IndexSet) (pending : List Nat) :
    Prop where
  capacity : seen.capacity = g.size
  consistent : seen.Consistent
  lt_size : ∀ j ∈ pending, j < g.size
  start : seen.contains i = true ∨ i ∈ pending
  reached : ∀ {j}, seen.contains j = true ∨ j ∈ pending → ReflTransGen g.Edge i j
  explored : ∀ {j k}, seen.contains j = true → g.Edge j k → seen.contains k = true ∨ k ∈ pending

namespace Exploring

variable {seen : IndexSet} {j : Nat} {rest : List Nat}

theorem visit (hg : g.Coherent) (h : Exploring g i seen (j :: rest))
    (hfree : seen.isFree j = true) : Exploring g i (seen.insert j) (g.targetsAt j ++ rest) := by
  have hcontains := IndexSet.contains_insert_of_isFree hfree
  have hnow : ∀ {k}, seen.contains k = true ∨ k ∈ j :: rest →
      (seen.insert j).contains k = true ∨ k ∈ g.targetsAt j ++ rest := by
    rintro k (hk | hk)
    · exact Or.inl ((hcontains k).2 (Or.inl hk))
    · rcases List.mem_cons.1 hk with rfl | hk
      · exact Or.inl ((hcontains k).2 (Or.inr rfl))
      · exact Or.inr (List.mem_append_right _ hk)
  refine ⟨by rw [IndexSet.capacity_insert, h.capacity], h.consistent.insert j, ?_, hnow h.start, ?_, ?_⟩
  · intro k hk
    rcases List.mem_append.1 hk with hk | hk
    · exact hg.target_lt hk
    · exact h.lt_size k (List.mem_cons_of_mem _ hk)
  · rintro k (hk | hk)
    · rcases (hcontains k).1 hk with hk | rfl
      · exact h.reached (Or.inl hk)
      · exact h.reached (Or.inr (List.mem_cons_self ..))
    · rcases List.mem_append.1 hk with hk | hk
      · exact (h.reached (Or.inr (List.mem_cons_self ..))).tail hk
      · exact h.reached (Or.inr (List.mem_cons_of_mem _ hk))
  · intro k m hk hkm
    rcases (hcontains k).1 hk with hk | rfl
    · exact hnow (h.explored hk hkm)
    · exact Or.inr (List.mem_append_left _ hkm)

theorem pass (h : Exploring g i seen (j :: rest)) (hfree : seen.isFree j = false) :
    Exploring g i seen rest := by
  have hj : seen.contains j = true := by
    refine IndexSet.contains_of_not_isFree ?_ hfree
    rw [h.capacity]
    exact h.lt_size j (List.mem_cons_self ..)
  have hnow : ∀ {k}, seen.contains k = true ∨ k ∈ j :: rest → seen.contains k = true ∨ k ∈ rest := by
    rintro k (hk | hk)
    · exact Or.inl hk
    · rcases List.mem_cons.1 hk with rfl | hk
      · exact Or.inl hj
      · exact Or.inr hk
  refine ⟨h.capacity, h.consistent, fun k hk => h.lt_size k (List.mem_cons_of_mem _ hk),
    hnow h.start, fun hk => h.reached ?_, fun hk hkm => hnow (h.explored hk hkm)⟩
  exact hk.imp_right (List.mem_cons_of_mem _)

end Exploring

theorem exploring_searchFrom (hg : g.Coherent) {seen : IndexSet} {pending : List Nat}
    (h : Exploring g i seen pending) : Exploring g i (g.searchFrom seen pending) [] := by
  fun_induction searchFrom g seen pending with
  | case1 seen => exact h
  | case2 seen j rest hfree ih => exact ih (h.visit hg hfree)
  | case3 seen j rest hfree ih => exact ih (h.pass (Bool.eq_false_iff.2 hfree))

theorem exploring_start (hi : i < g.size) : Exploring g i (.empty g.size) [i] where
  capacity := IndexSet.capacity_empty _
  consistent := IndexSet.consistent_empty _
  lt_size j hj := List.mem_singleton.1 hj ▸ hi
  start := Or.inr (List.mem_singleton_self i)
  reached {j} hj := by
    rcases hj with hj | hj
    · rw [IndexSet.contains_empty] at hj
      cases hj
    · rw [List.mem_singleton.1 hj]
  explored {j k} hj := by
    rw [IndexSet.contains_empty] at hj
    cases hj

/-- The search finds what a position leads to, other than itself. -/
theorem mem_reachable_iff (hg : g.Coherent) (hi : i < g.size) {j : Nat} :
    j ∈ g.reachable i ↔ j ≠ i ∧ TransGen g.Edge i j := by
  have h := exploring_searchFrom hg (exploring_start hi)
  have hmem : j ∈ (g.searchFrom (.empty g.size) [i]).toList ↔ ReflTransGen g.Edge i j := by
    rw [h.consistent.mem_iff]
    refine ⟨fun hj => h.reached (Or.inl hj), fun hj => ?_⟩
    induction hj with
    | refl => exact h.start.resolve_right List.not_mem_nil
    | tail _ hstep ih => exact (h.explored ih hstep).resolve_right List.not_mem_nil
  rw [reachable, List.mem_filter, hmem, bne_iff_ne, and_comm, reflTransGen_iff_eq_or_transGen]
  constructor
  · rintro ⟨hne, rfl | hj⟩
    · exact absurd rfl hne
    · exact ⟨hne, hj⟩
  · exact fun h => ⟨h.1, Or.inr h.2⟩

theorem mem_impliedTargets_iff (hg : g.Coherent) (hi : i < g.size) {j : Nat} :
    j ∈ g.impliedTargets i ↔ j ≠ i ∧ TransGen g.Edge i j ∧ ¬ g.Edge i j := by
  rw [impliedTargets, List.mem_filter, mem_reachable_iff hg hi, Bool.not_eq_true', ← Bool.not_eq_true,
    List.contains_iff_mem, and_assoc]
  rfl

theorem nodup_impliedTargets (hg : g.Coherent) (hi : i < g.size) : (g.impliedTargets i).Nodup :=
  ((exploring_searchFrom hg (exploring_start hi)).consistent.nodup.filter _).filter _

/-! ## Graphs with the same consequences -/

/-- The graph `g'` has the ids of `g`, what was stated in it, and constraints
    that follow from those of `g`, which come first. -/
structure Extends (g g' : PrecedenceGraph) : Prop where
  size : g'.size = g.size
  idAt : ∀ i, g'.idAt i = g.idAt i
  position? : ∀ id, g'.position? id = g.position? id
  statedAt? : ∀ i j, g'.statedAt? i j = g.statedAt? i j
  targetsAt : ∀ i, g.targetsAt i <+: g'.targetsAt i
  follows : ∀ {i j}, g'.Edge i j → TransGen g.Edge i j

namespace Extends

variable {g' g'' : PrecedenceGraph}

theorem refl (g : PrecedenceGraph) : Extends g g :=
  ⟨rfl, fun _ => rfl, fun _ => rfl, fun _ _ => rfl, fun _ => List.prefix_rfl, .single⟩

theorem edge (h : Extends g g') {i j : Nat} (hij : g.Edge i j) : g'.Edge i j :=
  (h.targetsAt i).subset hij

theorem transGen_iff (h : Extends g g') {i j : Nat} :
    TransGen g'.Edge i j ↔ TransGen g.Edge i j := by
  constructor
  · exact fun hij => hij.lift' id fun _ _ => h.follows
  · exact fun hij => hij.lift id fun _ _ => h.edge

theorem trans (h : Extends g g') (h' : Extends g' g'') : Extends g g'' where
  size := h'.size.trans h.size
  idAt i := (h'.idAt i).trans (h.idAt i)
  position? id := (h'.position? id).trans (h.position? id)
  statedAt? i j := (h'.statedAt? i j).trans (h.statedAt? i j)
  targetsAt i := (h.targetsAt i).trans (h'.targetsAt i)
  follows hij := h.transGen_iff.1 (h'.follows hij)

theorem ids (h : Extends g g') : g'.ids = g.ids := ids_eq_of_idAt_eq h.size h.idAt

end Extends

/-- To close one position keeps a graph coherent and what follows from it. -/
theorem Coherent.closeAt (hg : g.Coherent) (hi : i < g.size) :
    (g.closeAt i).Coherent ∧ Extends g (g.closeAt i) := by
  unfold PrecedenceGraph.closeAt
  split
  · exact ⟨hg, .refl g⟩
  · have hmem := fun j => mem_impliedTargets_iff hg hi (j := j)
    have hnew : ∀ j ∈ g.impliedTargets i, ¬ g.Edge i j := fun j hj => ((hmem j).1 hj).2.2
    refine ⟨hg.implyAt hi ?_ (nodup_impliedTargets hg hi) hnew, ?_⟩
    · exact fun j hj => hg.target_lt_of_transGen ((hmem j).1 hj).2.1
    · refine ⟨size_updateAt .., idAt_updateAt g i _, position?_updateAt g i _,
        statedAt?_implyAt hi _, ?_, ?_⟩
      · intro k
        rw [targetsAt_implyAt hi]
        split
        · exact List.prefix_append _ _
        · exact List.prefix_rfl
      · intro k j hkj
        rw [Edge, targetsAt_implyAt hi] at hkj
        split at hkj
        · next hik =>
          subst hik
          rcases List.mem_append.1 hkj with hkj | hkj
          · exact .single hkj
          · exact ((hmem j).1 hkj).2.1
        · exact .single hkj

/-- A constraint that one position has when it is closed was there before, or the
    position is on no cycle and led there. -/
theorem edge_closeAt_cases (hg : g.Coherent) (hi : i < g.size) {k m : Nat}
    (hkm : (g.closeAt i).Edge k m) :
    g.Edge k m ∨ (k = i ∧ ¬ TransGen g.Edge i i ∧ TransGen g.Edge i m) := by
  unfold PrecedenceGraph.closeAt at hkm
  split at hkm
  · exact Or.inl hkm
  · next hcycle =>
    rw [isSome_findCycle_iff hg] at hcycle
    rw [Edge, targetsAt_implyAt hi] at hkm
    split at hkm
    · next hik =>
      rcases List.mem_append.1 hkm with hkm | hkm
      · exact Or.inl hkm
      · exact Or.inr ⟨hik.symm, hcycle, ((mem_impliedTargets_iff hg hi).1 hkm).2.1⟩
    · exact Or.inl hkm

/-- To show something of a closed graph, show that it holds at first and is kept when
    one position after the other is closed; `n` counts those that have been. -/
theorem close_steps {P : Nat → PrecedenceGraph → Prop} (hg : g.Coherent) (zero : P 0 g)
    (succ : ∀ {n g'}, n < g.size → g'.Coherent → Extends g g' → P n g' → P (n + 1) (g'.closeAt n)) :
    g.close.Coherent ∧ Extends g g.close ∧ P g.size g.close := by
  suffices h : ∀ n ≤ g.size, ((List.range n).foldl PrecedenceGraph.closeAt g).Coherent ∧
      Extends g ((List.range n).foldl PrecedenceGraph.closeAt g) ∧
        P n ((List.range n).foldl PrecedenceGraph.closeAt g) from h g.size (Nat.le_refl _)
  intro n
  induction n with
  | zero => exact fun _ => ⟨hg, .refl g, zero⟩
  | succ n ih =>
    intro hn
    obtain ⟨hcoherent, hextends, hP⟩ := ih (Nat.le_of_succ_le hn)
    obtain ⟨hcoherent', hextends'⟩ := hcoherent.closeAt (i := n) (by rw [hextends.size]; exact hn)
    rw [List.range_succ, List.foldl_append, List.foldl_cons, List.foldl_nil]
    exact ⟨hcoherent', hextends.trans hextends', succ hn hcoherent hextends hP⟩

/-- To close a graph keeps it coherent and what follows from it. -/
theorem Coherent.close (hg : g.Coherent) : g.close.Coherent ∧ Extends g g.close := by
  obtain ⟨hcoherent, hextends, -⟩ := close_steps (P := fun _ _ => True) hg trivial
    fun _ _ _ _ => trivial
  exact ⟨hcoherent, hextends⟩

end InstallerLinker.PrecedenceGraph
