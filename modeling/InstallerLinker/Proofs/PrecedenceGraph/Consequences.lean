/-
  Installer linker — the order depends on what follows, not on what is written out.

  To close a graph adds a constraint to whatever an id must follow, so that ids
  wait for more others and are released by more.  The order does not change.  All
  that an id must follow comes before what it must follow directly, so an id can
  come next at the same places in both graphs, and the same one is chosen.  This
  holds on cyclic graphs as well, where the ids that lead to a cycle are never
  chosen.

  * `SameConsequences` relates graphs in which the same leads to what, and
    `GreedyOrder.eq` that they have one order, `Coherent.sorted_close` that a graph
    is so related to its closure;
  * `LeadsToCycle` are the ids that have no place in it, in terms of constraints
    between ids;
  * `sorted_close_run` says it of all runs.
-/
import InstallerLinker.Proofs.PrecedenceGraph.CycleReport
import InstallerLinker.Proofs.PrecedenceGraph.LeastOrder

namespace InstallerLinker.PrecedenceGraph
open Relation

variable {g g' : PrecedenceGraph} {placed placed' : List Nat}

/-! ## Graphs with the same consequences -/

/-- The two graphs have the same ids, and in both the same leads to what. -/
structure SameConsequences (g g' : PrecedenceGraph) : Prop where
  size : g.size = g'.size
  idAt : ∀ i, g.idAt i = g'.idAt i
  transGen_iff : ∀ i j, TransGen g.Edge i j ↔ TransGen g'.Edge i j

namespace SameConsequences

theorem symm (h : SameConsequences g g') : SameConsequences g' g :=
  ⟨h.size.symm, fun i => (h.idAt i).symm, fun i j => (h.transGen_iff i j).symm⟩

theorem grounded_iff (h : SameConsequences g g') (i : Nat) : g.Grounded i ↔ g'.Grounded i := by
  refine forall_congr' fun j => imp_congr ?_ (not_congr (h.transGen_iff j j))
  rw [reflTransGen_iff_eq_or_transGen, reflTransGen_iff_eq_or_transGen, h.transGen_iff]

/-- What comes next in the order of one graph can come next in the other. -/
theorem available (h : SameConsequences g g') (hplaced : g'.GreedyOrder placed)
    {before : List Nat} {i : Nat} (hi : before ++ [i] <+: placed) : g.Available before i := by
  have hmem : i ∈ placed := hi.subset (List.mem_append_right _ (List.mem_singleton_self i))
  refine ⟨h.size ▸ hplaced.lt_size hmem, not_mem_of_prefix hplaced.nodup hi, fun j hj => ?_⟩
  exact hplaced.legal.mem_before hi ((h.transGen_iff i j).1 (.single hj))

end SameConsequences

/-- Lists of one length are equal if they agree where they would first differ. -/
theorem eq_of_first_difference {α : Type} {l l' : List α} (hlength : l.length = l'.length)
    (h : ∀ p x y, p ++ [x] <+: l → p ++ [y] <+: l' → x = y) : l = l' := by
  induction l generalizing l' with
  | nil => exact (List.length_eq_zero_iff.1 hlength.symm).symm
  | cons x l ih =>
    cases l' with
    | nil => exact absurd hlength (Nat.succ_ne_zero _)
    | cons y l' =>
      obtain rfl : x = y := h [] x y ⟨l, rfl⟩ ⟨l', rfl⟩
      refine congrArg (x :: ·) (ih (Nat.succ.inj hlength) fun p a b ha hb => ?_)
      exact h (x :: p) a b (List.prefix_cons_inj x |>.2 ha) (List.prefix_cons_inj x |>.2 hb)

/-- Graphs with the same consequences have one order. -/
theorem GreedyOrder.eq (hg : g.Coherent) (hsame : SameConsequences g g')
    (h : g.GreedyOrder placed) (h' : g'.GreedyOrder placed') : placed = placed' := by
  have hperm : placed.Perm placed' := by
    refine (List.perm_ext_iff_of_nodup h.nodup h'.nodup).2 fun i => ?_
    rw [h.mem_iff, h'.mem_iff, hsame.size, hsame.grounded_iff]
  refine eq_of_first_difference hperm.length_eq fun p x y hx hy => ?_
  -- each of the two could have come in the place of the other
  have hy' := hsame.available h' hy
  have hx' := hsame.symm.available h hx
  have hle := h.greedy p x hx y hy'
  have hge := h'.greedy p y hy x hx'
  rw [← hsame.idAt, ← hsame.idAt] at hge
  have hlt := h.lt_size (hx.subset (List.mem_append_right _ (List.mem_singleton_self x)))
  exact hg.idAt_inj hlt hy'.1 (le_antisymm hle hge)

theorem SameConsequences.sorted (h : SameConsequences g g') (hg : g.Coherent)
    (hg' : g'.Coherent) : g.sorted = g'.sorted := by
  have hpositions := GreedyOrder.eq hg h (greedyOrder_sortedPositions hg)
    (greedyOrder_sortedPositions hg')
  rw [sorted_eq, sorted_eq, hpositions]
  exact List.map_congr_left fun i _ => h.idAt i

/-- A graph that is closed has the order that it had before. -/
theorem Coherent.sorted_close (hg : g.Coherent) : g.close.sorted = g.sorted := by
  obtain ⟨hclose, hextends⟩ := hg.close
  exact SameConsequences.sorted
    ⟨hextends.size, hextends.idAt, fun _ _ => hextends.transGen_iff⟩ hclose hg

/-! ## Ids that lead to a cycle -/

/-- Constraints lead from an id to one that must follow itself; it may be that one. -/
def LeadsToCycle (g : PrecedenceGraph) (id : String) : Prop :=
  ∃ c, ReflTransGen g.Follows id c ∧ TransGen g.Follows c c

theorem leadsToCycle_iff (hg : g.Coherent) {i : Nat} (hi : i < g.size) :
    g.LeadsToCycle (g.idAt i) ↔ ¬ g.Grounded i := by
  simp only [LeadsToCycle, Grounded, reflTransGen_iff_eq_or_transGen, not_forall, not_not]
  constructor
  · rintro ⟨c, hreach, hcycle⟩
    obtain ⟨k, hk, rfl⟩ := hg.exists_position (mem_ids_of_transGen_follows hg hcycle).1
    rw [transGen_follows_iff hg hk hk] at hcycle
    rw [transGen_follows_iff hg hi hk] at hreach
    exact ⟨k, hreach.imp_left (hg.idAt_inj hk hi), hcycle⟩
  · rintro ⟨k, hreach, hcycle⟩
    have hk := lt_size_of_transGen hcycle
    refine ⟨g.idAt k, ?_, (transGen_follows_iff hg hk hk).2 hcycle⟩
    exact hreach.imp (congrArg g.idAt) (transGen_follows_iff hg hi hk).2

theorem mem_sorted_iff_not_leadsToCycle (hg : g.Coherent) {id : String} :
    id ∈ g.sorted ↔ id ∈ g.ids ∧ ¬ g.LeadsToCycle id := by
  constructor
  · intro hid
    have hmem := mem_ids_of_mem_sorted hg hid
    obtain ⟨i, hi, rfl⟩ := hg.exists_position hmem
    rw [leadsToCycle_iff hg hi, not_not]
    exact ⟨hmem, (mem_sorted_iff hg hi).1 hid⟩
  · rintro ⟨hmem, hcycle⟩
    obtain ⟨i, hi, rfl⟩ := hg.exists_position hmem
    rw [leadsToCycle_iff hg hi, not_not] at hcycle
    exact (mem_sorted_iff hg hi).2 hcycle

/-- In the order, an id comes after all that it must follow. -/
theorem sublist_sorted_of_follows (hg : g.Coherent) {a b : String} (ha : a ∈ g.sorted)
    (hab : TransGen g.Follows a b) : [b, a].Sublist g.sorted := by
  obtain ⟨hida, hidb⟩ := mem_ids_of_transGen_follows hg hab
  obtain ⟨i, hi, rfl⟩ := hg.exists_position hida
  obtain ⟨j, hj, rfl⟩ := hg.exists_position hidb
  exact sublist_sorted hg hi ha ((transGen_follows_iff hg hi hj).1 hab)

/-- **What is left out of the order, and that closing does not show.**  However a
    graph was built, it has the order that it has when closed.  The order holds each
    id once that does not lead to a cycle, after all that it must follow, and no
    other id. -/
theorem sorted_close_run (ops : List GraphOp) :
    (run ops).close.sorted = (run ops).sorted ∧ (run ops).sorted.Nodup ∧
      (∀ id, id ∈ (run ops).sorted ↔ id ∈ (run ops).ids ∧ ¬ (run ops).LeadsToCycle id) ∧
      ∀ a b, a ∈ (run ops).sorted → TransGen (run ops).Follows a b →
        [b, a].Sublist (run ops).sorted := by
  have hg := (reflects_run ops).coherent
  exact ⟨hg.sorted_close, nodup_sorted hg, fun id => mem_sorted_iff_not_leadsToCycle hg,
    fun a b => sublist_sorted_of_follows hg⟩

/-- A cycle of two ids, with `w` leading into it, beside a chain. -/
def cycleAndChain : List GraphOp :=
  [.addConstraint "w" "y" .unknown, .addConstraint "y" "z" .unknown,
    .addConstraint "a" "b" .unknown, .order ∅, .addConstraint "b" "c" .unknown, .close,
    .addConstraint "z" "y" .unknown]

theorem sorted_close_cycleAndChain :
    "a" ∈ (run cycleAndChain).sorted ∧ TransGen (run cycleAndChain).Follows "a" "c" ∧
      (run cycleAndChain).close.sorted = ["c", "b", "a"] ∧
      (run cycleAndChain).sorted = ["c", "b", "a"] ∧
      ["c", "a"].Sublist (run cycleAndChain).sorted := by
  obtain ⟨hclose, -, -, hafter⟩ := sorted_close_run cycleAndChain
  have hsorted : (run cycleAndChain).sorted = ["c", "b", "a"] := by cbv
  have ha : "a" ∈ (run cycleAndChain).sorted := by
    rw [hsorted]
    decide
  have hfollows : TransGen (run cycleAndChain).Follows "a" "c" := by
    refine .single ?_
    show "c" ∈ (run cycleAndChain).after "a"
    decide +kernel
  rw [hsorted] at hclose
  exact ⟨ha, hfollows, hclose, hsorted, hafter "a" "c" ha hfollows⟩

end InstallerLinker.PrecedenceGraph
