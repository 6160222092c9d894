/-
  Installer linker — the order of a graph is the least of all its orders.

  A graph may have many orders that meet its constraints.  The one that is built
  takes the least id that can come next, at each place.  Where another order
  first differs from it, that order has an id that could have come there too, so
  it is greater as a list of ids.

  * `Available` are the positions that can come next, and `Greedy` says of a list
    that each of its positions is the least of those;
  * `Choosing` adds to the invariant `Placing` that what is ready is sorted by id,
    so that its head is the least; `Choosing.placeNext` is its step;
  * `GreedyOrder` says what the list of positions is that comes of it;
  * `IsOrder` says which lists are orders by the statements, and
    `Reflects.sorted_le` that none of them is smaller than the one built;
  * `isLeast_sorted_run` says it of all runs.
-/
import Mathlib.Data.List.Permutation
import Mathlib.Data.String.Basic
import Mathlib.Order.Bounds.Basic
import InstallerLinker.Proofs.PrecedenceGraph.Order

namespace InstallerLinker.PrecedenceGraph
open Relation

variable {g : PrecedenceGraph} {ss : List Statement} {placed : List Nat}

/-! ## What is ready is sorted -/

/-- The ids at these positions are in order. -/
def ById (g : PrecedenceGraph) (js : List Nat) : Prop :=
  js.Pairwise fun i j => g.idAt i ≤ g.idAt j

theorem ById.insertReady {js : List Nat} (h : g.ById js) (i : Nat) : g.ById (g.insertReady i js) := by
  induction js with
  | nil => exact List.pairwise_singleton _ _
  | cons j js ih =>
    obtain ⟨hj, hjs⟩ := List.pairwise_cons.1 h
    rw [PrecedenceGraph.insertReady]
    split
    · next hij =>
      refine List.pairwise_cons.2 ⟨fun k hk => ?_, h⟩
      rcases List.mem_cons.1 hk with rfl | hk
      · exact hij.le
      · exact hij.le.trans (hj k hk)
    · next hij =>
      refine List.pairwise_cons.2 ⟨fun k hk => ?_, ih hjs⟩
      rcases List.mem_cons.1 ((g.insertReady_perm i js).mem_iff.1 hk) with rfl | hk
      · exact not_lt.1 hij
      · exact hj k hk

theorem ById.release {s : Sorter} (h : g.ById s.ready) (i : Nat) : g.ById (g.release s i).ready := by
  cases hn : s.waiting.getD i 0 with
  | zero =>
    obtain ⟨waiting, ready, placed⟩ := s
    simp only at hn
    simpa only [PrecedenceGraph.release, hn] using h
  | succ n =>
    rw [release_of_getD hn]
    dsimp only
    split
    · exact h.insertReady i
    · exact h

theorem ById.foldl_release {s : Sorter} (h : g.ById s.ready) (is : List Nat) :
    g.ById (is.foldl g.release s).ready := by
  induction is generalizing s with
  | nil => exact h
  | cons i is ih => exact ih (h.release i)

theorem byId_sortStart (g : PrecedenceGraph) : g.ById g.sortStart.ready := by
  have htrans : ∀ i j k, decide (g.idAt i ≤ g.idAt j) = true → decide (g.idAt j ≤ g.idAt k) = true →
      decide (g.idAt i ≤ g.idAt k) = true := by
    intro i j k hij hjk
    exact decide_eq_true ((of_decide_eq_true hij).trans (of_decide_eq_true hjk))
  have htotal : ∀ i j, (decide (g.idAt i ≤ g.idAt j) || decide (g.idAt j ≤ g.idAt i)) = true := by
    intro i j
    simpa using le_total (g.idAt i) (g.idAt j)
  exact (List.pairwise_mergeSort htrans htotal _).imp of_decide_eq_true

/-! ## The choice at each place -/

/-- Position `i` can come next after the positions `placed`. -/
def Available (g : PrecedenceGraph) (placed : List Nat) (i : Nat) : Prop :=
  i < g.size ∧ i ∉ placed ∧ ∀ j, g.Edge i j → j ∈ placed

/-- In a list, each position has the least id of those that could have come at its
    place. -/
def Greedy (g : PrecedenceGraph) (placed : List Nat) : Prop :=
  ∀ before i, before ++ [i] <+: placed → ∀ k, g.Available before k → g.idAt i ≤ g.idAt k

theorem Greedy.append_singleton {placed : List Nat} (h : g.Greedy placed) {i : Nat}
    (hi : ∀ k, g.Available placed k → g.idAt i ≤ g.idAt k) : g.Greedy (placed ++ [i]) := by
  intro before k hk
  rcases prefix_append_singleton_cases hk with ⟨rfl, rfl⟩ | hk
  · exact hi
  · exact h before k hk

/-- The ids that are ready are in order, and so far the least has been chosen each
    time. -/
structure Choosing (g : PrecedenceGraph) (s : Sorter) : Prop where
  placing : Placing g s
  ready : g.ById s.ready
  greedy : g.Greedy s.placed.toList

theorem Choosing.placeNext (hg : g.Coherent) {waiting : Array Nat} {i : Nat} {ready : List Nat}
    {placed : Array Nat} (h : Choosing g ⟨waiting, i :: ready, placed⟩) :
    Choosing g (g.placeNext g.followers waiting i ready placed) := by
  obtain ⟨hi, hready⟩ := List.pairwise_cons.1 h.ready
  refine ⟨h.placing.placeNext hg, ?_, ?_⟩
  · exact ById.foldl_release (s := ⟨waiting, ready, placed.push i⟩) hready _
  · rw [h.placing.placed_placeNext hg, Array.toList_push]
    refine h.greedy.append_singleton fun k hk => ?_
    have hmem : k ∈ i :: ready := h.placing.mem_ready_iff.2 (by simpa [Available] using hk)
    rcases List.mem_cons.1 hmem with rfl | hmem
    · exact le_rfl
    · exact hi k hmem

theorem choosing_sortRun (hg : g.Coherent) {s : Sorter} (h : Choosing g s) :
    Choosing g (g.sortRun g.followers s) := by
  fun_induction sortRun g g.followers s with
  | case1 waiting placed => exact h
  | case2 waiting i ready placed ih => exact ih (h.placeNext hg)

theorem choosing_sortStart (g : PrecedenceGraph) : Choosing g g.sortStart where
  placing := placing_sortStart g
  ready := byId_sortStart g
  greedy before i h := by
    have := List.prefix_nil.1 h
    simp at this

/-! ## The order as a list of positions -/

/-- A list holds the positions that lead to no cycle, each once and after all that
    it must follow, and at each place the least of those that could come there. -/
structure GreedyOrder (g : PrecedenceGraph) (placed : List Nat) : Prop where
  mem_iff : ∀ i, i ∈ placed ↔ i < g.size ∧ g.Grounded i
  nodup : placed.Nodup
  legal : g.Legal placed
  greedy : g.Greedy placed

theorem greedyOrder_sortedPositions (hg : g.Coherent) : g.GreedyOrder g.sortedPositions where
  mem_iff _ := Array.mem_toList_iff.trans (mem_placed_iff hg)
  nodup := (placing_sortRun hg (placing_sortStart g)).1.nodup
  legal := (placing_sortRun hg (placing_sortStart g)).1.legal
  greedy := (choosing_sortRun hg (choosing_sortStart g)).greedy

theorem GreedyOrder.lt_size (h : g.GreedyOrder placed) {i : Nat} (hi : i ∈ placed) : i < g.size :=
  ((h.mem_iff i).1 hi).1

/-! ## All orders of a graph -/

/-- A list of the given ids in which each comes after all that it must follow by
    the statements. -/
structure IsOrder (ids : List String) (ss : List Statement) (list : List String) : Prop where
  perm : list.Perm ids
  follows : ∀ a b, MustFollow ss a b → [b, a].Sublist list

/-- A list is the smaller one if it has the smaller entry where the two first
    differ. -/
theorem le_of_first_difference {l l' : List String} (hlength : l.length = l'.length)
    (h : ∀ p x y s s', l = p ++ x :: s → l' = p ++ y :: s' → x ≤ y) : l ≤ l' := by
  induction l generalizing l' with
  | nil => rw [List.length_eq_zero_iff.1 hlength.symm]
  | cons x l ih =>
    cases l' with
    | nil => exact absurd hlength (Nat.succ_ne_zero _)
    | cons y l' =>
      rcases (h [] x y l l' rfl rfl).lt_or_eq with hlt | rfl
      · exact le_of_lt (List.Lex.rel hlt)
      · refine List.cons_le_cons x (ih (Nat.succ.inj hlength) fun p a b s s' hl hl' => ?_)
        exact h (x :: p) a b s s' (congrArg _ hl) (congrArg _ hl')

/-- The position of an id in an order can come next after those of the ids before
    it. -/
theorem Reflects.available (h : g.Reflects ss) {before : List Nat} {k : Nat} {s : List String}
    (hk : k < g.size) (hbefore : ∀ i ∈ before, i < g.size)
    (horder : IsOrder g.ids ss (before.map g.idAt ++ g.idAt k :: s)) : g.Available before k := by
  have hnodup := horder.perm.nodup_iff.2 h.coherent.nodup_ids
  refine ⟨hk, fun hmem => ?_, fun j hj => ?_⟩
  · obtain ⟨-, -, hdisjoint⟩ := List.nodup_append.1 hnodup
    exact hdisjoint _ (List.mem_map_of_mem hmem) _ (List.mem_cons_self ..) rfl
  · have hpair := mem_of_pair_sublist hnodup (horder.follows _ _ (h.follows hj))
    obtain ⟨i, hi, hij⟩ := List.mem_map.1 hpair
    rwa [← h.coherent.idAt_inj (hbefore i hi) (h.coherent.target_lt hj) hij]

/-- No order is smaller than the one that is built. -/
theorem Reflects.sorted_le (h : g.Reflects ss) (hsorted : IsOrder g.ids ss g.sorted)
    {list : List String} (horder : IsOrder g.ids ss list) : g.sorted ≤ list := by
  have hpositions := greedyOrder_sortedPositions h.coherent
  refine le_of_first_difference (hsorted.perm.trans horder.perm.symm).length_eq ?_
  rintro p x y s s' hp rfl
  rw [sorted_eq] at hp
  obtain ⟨before, rest, hplaced, rfl, hrest⟩ := List.map_eq_append_iff.1 hp
  obtain ⟨i, later, rfl, rfl, -⟩ := List.map_eq_cons_iff.1 hrest
  have hy : y ∈ g.ids :=
    horder.perm.mem_iff.1 (List.mem_append_right _ (List.mem_cons_self ..))
  obtain ⟨k, hk, rfl⟩ := h.exists_position hy
  have hbefore : ∀ j ∈ before, j < g.size := by
    intro j hj
    refine hpositions.lt_size ?_
    rw [hplaced]
    exact List.mem_append_left _ hj
  refine hpositions.greedy before i ⟨later, ?_⟩ k (h.available hk hbefore horder)
  rw [hplaced, List.append_assoc, List.singleton_append]

theorem Reflects.isLeast_sorted (h : g.Reflects ss) (hacyclic : ∀ id, ¬ MustFollow ss id id) :
    IsLeast {list | IsOrder g.ids ss list} g.sorted := by
  obtain ⟨-, hperm, hfollows⟩ := h.sorted_spec hacyclic
  exact ⟨⟨hperm, hfollows⟩, fun list hlist => h.sorted_le ⟨hperm, hfollows⟩ hlist⟩

/-- **The law of ties.**  However a graph was built, if no id must follow itself,
    the order of its ids is the least of all that meet what was stated, compared
    as lists of texts; only one list is that.  It is the same whether or not the
    constraints that follow from others are added first. -/
theorem isLeast_sorted_run (ops : List GraphOp) (log : Log CircularConstraint)
    (hacyclic : ∀ id, ¬ MustFollow (statements ops) id id) :
    IsLeast {list | IsOrder (run ops).ids (statements ops) list} (run ops).sorted ∧
      (∀ list, IsLeast {list | IsOrder (run ops).ids (statements ops) list} list →
        list = (run ops).sorted) ∧
      ((run ops).order log).1 = some (run ops).sorted := by
  have h := reflects_run ops
  have hleast := h.isLeast_sorted hacyclic
  refine ⟨hleast, fun list hlist => hlist.unique hleast, ?_⟩
  have hgraph : ∀ i, ¬ TransGen (run ops).Edge i i := fun i hi => by
    obtain ⟨id, hid⟩ := h.exists_cycle_iff.1 ⟨i, hi⟩
    exact hacyclic id hid
  have hclosed := h.close.isLeast_sorted hacyclic
  rw [h.coherent.close.2.ids] at hclosed
  rw [order_of_acyclic h.coherent log hgraph, hclosed.unique hleast]

/-- Two pairs that do not depend on each other. -/
def twoPairs : List GraphOp :=
  [.addConstraint "a" "c" .unknown, .addId "b", .close, .addConstraint "d" "b" .unknown]

theorem isLeast_sorted_twoPairs :
    (∀ id, ¬ MustFollow (statements twoPairs) id id) ∧
      IsLeast {list | IsOrder ["a", "c", "b", "d"] (statements twoPairs) list}
        ["b", "c", "a", "d"] ∧
      ((run twoPairs).order ∅).1 = some ["b", "c", "a", "d"] := by
  have hacyclic : ∀ id, ¬ MustFollow (statements twoPairs) id id := by
    intro id hid
    -- each statement leads from `a` or `d` to `b` or `c`
    have hrank : ∀ s ∈ statements twoPairs,
        (if s.first ∈ ["a", "d"] then 1 else 0) < if s.id ∈ ["a", "d"] then 1 else 0 := by decide
    have := hid.lift (p := (· > ·)) (fun id => if id ∈ ["a", "d"] then 1 else 0)
      fun a b ⟨s, hs, hsa, hsb⟩ => hsa ▸ hsb ▸ hrank s hs
    rw [transGen_eq_self] at this
    exact lt_irrefl _ this
  have hids : (run twoPairs).ids = ["a", "c", "b", "d"] := by decide +kernel
  have hsorted : (run twoPairs).sorted = ["b", "c", "a", "d"] := by cbv
  obtain ⟨hleast, -, horder⟩ := isLeast_sorted_run twoPairs ∅ hacyclic
  rw [hids, hsorted] at hleast
  rw [hsorted] at horder
  exact ⟨hacyclic, hleast, horder⟩

end InstallerLinker.PrecedenceGraph
