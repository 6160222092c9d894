/-
  Installer linker — where comparing ids two by two gives the order.

  Two ids can be compared without the others: one comes earlier if the other must
  follow it, and otherwise the smaller one does.  This is no order in general, for
  an id without constraints may stand between two others as text.  Where it is one,
  to sort the ids by it gives the order of the graph.

  The reason is that a smaller id is never left waiting.  If `j` is smaller than an id
  `i` placed before it, then something that `j` must follow could have come in the
  place of `i` but was greater; so `i` is earlier than that, that is earlier than `j`,
  and yet `j` is earlier than `i`.

  * `Earlier` is the comparison;
  * `GreedyOrder.exists_available` finds what an id still waits for, and
    `GreedyOrder.earlier` is the argument above;
  * `pairwise_earlier_order_run` is the result for all runs.
-/
import InstallerLinker.Proofs.PrecedenceGraph.Consequences

namespace InstallerLinker.PrecedenceGraph
open Relation

variable {g : PrecedenceGraph} {placed before : List Nat} {i j : Nat}

/-- Compared by themselves, `a` comes earlier than `b`: `b` must follow `a`, or
    neither must follow the other and `a` is the smaller text. -/
def Earlier (g : PrecedenceGraph) (a b : String) : Prop :=
  TransGen g.Follows b a ∨ (¬ TransGen g.Follows b a ∧ ¬ TransGen g.Follows a b ∧ a < b)

/-- The comparison is transitive on the ids of the graph. -/
def EarlierTrans (g : PrecedenceGraph) : Prop :=
  ∀ a ∈ g.ids, ∀ b ∈ g.ids, ∀ c ∈ g.ids, g.Earlier a b → g.Earlier b c → g.Earlier a c

theorem earlier_idAt_iff (hg : g.Coherent) (hi : i < g.size) (hj : j < g.size) :
    g.Earlier (g.idAt i) (g.idAt j) ↔
      TransGen g.Edge j i ∨
        (¬ TransGen g.Edge j i ∧ ¬ TransGen g.Edge i j ∧ g.idAt i < g.idAt j) := by
  rw [Earlier, transGen_follows_iff hg hi hj, transGen_follows_iff hg hj hi]

/-- Of two ids, each earlier than the other, one must follow itself. -/
theorem Earlier.asymm {a b : String} (hacyclic : ∀ id, ¬ TransGen g.Follows id id)
    (hab : g.Earlier a b) (hba : g.Earlier b a) : False := by
  rcases hab with hab | ⟨-, hno, hlt⟩
  · rcases hba with hba | ⟨-, hno', -⟩
    · exact hacyclic b (hab.trans hba)
    · exact hno' hab
  · rcases hba with hba | ⟨-, -, hgt⟩
    · exact hno hba
    · exact lt_asymm hlt hgt

/-! ## What waits, and for what -/

/-- A position that has not come waits for one that could come next, or is that
    one. -/
theorem Grounded.exists_available (hg : g.Coherent) (hj : j < g.size) (h : g.Grounded j)
    (hnew : j ∉ before) : ∃ k, g.Available before k ∧ (k = j ∨ TransGen g.Edge j k) := by
  refine h.induct (P := fun m => m ∉ before → ∃ k, g.Available before k ∧
    (k = m ∨ TransGen g.Edge m k)) hg (fun m hm _ ih hnew => ?_) hj hnew
  by_cases hready : ∀ k, g.Edge m k → k ∈ before
  · exact ⟨m, ⟨hm, hnew, hready⟩, Or.inl rfl⟩
  · push Not at hready
    obtain ⟨n, hmn, hn⟩ := hready
    obtain ⟨k, hk, rfl | hnk⟩ := ih n hmn hn
    · exact ⟨k, hk, Or.inr (.single hmn)⟩
    · exact ⟨k, hk, Or.inr (.head hmn hnk)⟩

/-- Where the comparison is transitive, an id is earlier than those placed after
    it. -/
theorem GreedyOrder.earlier (hg : g.Coherent) (htrans : g.EarlierTrans) (h : g.GreedyOrder placed)
    (hi : before ++ [i] <+: placed) (hj : j ∈ placed) (hnew : j ∉ before ++ [i]) :
    g.Earlier (g.idAt i) (g.idAt j) := by
  have hilt := h.lt_size (hi.subset (List.mem_append_right _ (List.mem_singleton_self i)))
  have hjlt := h.lt_size hj
  have hjbefore : j ∉ before := fun hmem => hnew (List.mem_append_left _ hmem)
  have hne : j ≠ i := fun hji => hnew (List.mem_append_right _ (List.mem_singleton.2 hji))
  have hij : ¬ TransGen g.Edge i j := fun hij => hjbefore (h.legal.mem_before hi hij)
  by_contra hnot
  rw [earlier_idAt_iff hg hilt hjlt, not_or] at hnot
  obtain ⟨hji, hnot⟩ := hnot
  have hlt : g.idAt j < g.idAt i := by
    refine lt_of_le_of_ne (not_lt.1 fun hlt => hnot ⟨hji, hij, hlt⟩) fun heq => hne ?_
    exact hg.idAt_inj hjlt hilt heq
  -- `j` is smaller than `i`, so it was waiting when `i` was chosen
  obtain ⟨k, hk, hjk⟩ := ((h.mem_iff j).1 hj).2.exists_available hg hjlt hjbefore
  have hle := h.greedy before i hi k hk
  rcases hjk with rfl | hjk
  · exact absurd hlt (not_lt.2 hle)
  · have hki : ¬ TransGen g.Edge k i := fun hki => hji (hjk.trans hki)
    have hik : ¬ TransGen g.Edge i k := fun hik => hk.2.1 (h.legal.mem_before hi hik)
    have hne' : i ≠ k := fun heq => hji (heq ▸ hjk)
    have hltk : g.idAt i < g.idAt k :=
      lt_of_le_of_ne hle fun heq => hne' (hg.idAt_inj hilt hk.1 heq)
    have h1 : g.Earlier (g.idAt i) (g.idAt k) :=
      (earlier_idAt_iff hg hilt hk.1).2 (Or.inr ⟨hki, hik, hltk⟩)
    have h2 : g.Earlier (g.idAt k) (g.idAt j) :=
      (earlier_idAt_iff hg hk.1 hjlt).2 (Or.inl hjk)
    have h3 := htrans _ (idAt_mem_ids hilt) _ (idAt_mem_ids hk.1) _ (idAt_mem_ids hjlt) h1 h2
    rw [earlier_idAt_iff hg hilt hjlt] at h3
    exact h3.elim hji hnot

/-! ## The order by comparison -/

/-- To relate each entry of a list to those behind it, relate it to those that stand
    neither before it nor at its place. -/
theorem pairwise_of_prefix {α : Type} {r : α → α → Prop} {l : List α} (hnodup : l.Nodup)
    (h : ∀ before a, before ++ [a] <+: l → ∀ b ∈ l, b ∉ before ++ [a] → r a b) : l.Pairwise r := by
  rw [List.pairwise_iff_getElem]
  intro m n hm hn hmn
  have hprefix : l.take m ++ [l[m]] <+: l := by
    rw [List.take_append_getElem]
    exact List.take_prefix _ _
  refine h _ _ hprefix _ (List.getElem_mem hn) fun hmem => ?_
  rw [List.take_append_getElem] at hmem
  obtain ⟨k, hk, heq⟩ := List.mem_take_iff_getElem.1 hmem
  have := (List.Nodup.getElem_inj_iff hnodup).1 heq
  omega

theorem pairwise_earlier_sorted (hg : g.Coherent) (htrans : g.EarlierTrans) :
    g.sorted.Pairwise g.Earlier := by
  have h := greedyOrder_sortedPositions hg
  rw [sorted_eq, List.pairwise_map]
  exact pairwise_of_prefix h.nodup fun before i hi j hj hnew => h.earlier hg htrans hi hj hnew

/-- **The order by comparison.**  However a graph was built, if no id must follow
    itself and the comparison of two ids is transitive, then its order is the list
    of its ids sorted by the comparison; no other list is that. -/
theorem pairwise_earlier_order_run (ops : List GraphOp) (log : Log CircularConstraint)
    (hacyclic : ∀ id, ¬ TransGen (run ops).Follows id id) (htrans : (run ops).EarlierTrans) :
    ∃ list, ((run ops).order log).1 = some list ∧ list.Perm (run ops).ids ∧
      list.Pairwise (run ops).Earlier ∧
      ∀ list', list'.Perm (run ops).ids → list'.Pairwise (run ops).Earlier → list' = list := by
  have hg := (reflects_run ops).coherent
  have hgraph : ∀ i, ¬ TransGen (run ops).Edge i i := fun i hi =>
    hacyclic _ ((transGen_follows_self_iff hg).2 ⟨i, hi, rfl⟩)
  have hperm := sorted_perm_ids hg hgraph
  have hsorted := pairwise_earlier_sorted hg htrans
  refine ⟨(run ops).sorted, ?_, hperm, hsorted, fun list' hperm' hsorted' => ?_⟩
  · rw [order_of_acyclic hg log hgraph, hg.sorted_close]
  · refine List.Perm.eq_of_pairwise (fun a b _ _ hab hba => ?_) hsorted' hsorted
      (hperm'.trans hperm.symm)
    exact (hab.asymm hacyclic hba).elim

/-- A chain of three ids beside one without constraints, which is greater. -/
def chainAndLast : List GraphOp :=
  [.addId "d", .addConstraint "a" "b" .unknown, .addConstraint "b" "c" .unknown, .close]

/-- The pairs of ids of which the first must follow the second. -/
def chainPairs : List (String × String) := [("a", "b"), ("b", "c"), ("a", "c")]

theorem transGen_follows_chainAndLast (a b : String) :
    TransGen (run chainAndLast).Follows a b ↔ (a, b) ∈ chainPairs := by
  have h := reflects_run chainAndLast
  constructor
  · intro hab
    obtain ⟨i, j, hij, rfl, rfl⟩ := exists_transGen_edge h.coherent hab
    have hstated : ∀ s ∈ statements chainAndLast, (s.id, s.first) ∈ chainPairs := by decide
    have hjoined : ∀ p ∈ chainPairs, ∀ q ∈ chainPairs, p.2 = q.1 → (p.1, q.2) ∈ chainPairs := by
      decide
    have : IsTrans String fun a b => (a, b) ∈ chainPairs :=
      ⟨fun a b c hab hbc => hjoined _ hab _ hbc rfl⟩
    have hpairs : MustFollow (statements chainAndLast) ≤ fun a b => (a, b) ∈ chainPairs :=
      transGen_minimal fun a b ⟨s, hs, hid, hfirst⟩ => hid ▸ hfirst ▸ hstated s hs
    have hi := lt_size_of_transGen hij
    have hj := h.coherent.target_lt_of_transGen hij
    exact hpairs _ _ ((h.transGen_iff hi hj).1 hij)
  · intro hab
    have hafter : ∀ p ∈ chainPairs, p.2 ∈ (run chainAndLast).after p.1 := by decide +kernel
    exact .single (hafter _ hab)

theorem pairwise_earlier_chainAndLast :
    (∀ id, ¬ TransGen (run chainAndLast).Follows id id) ∧ (run chainAndLast).EarlierTrans ∧
      ∃ list, ((run chainAndLast).order ∅).1 = some list ∧ list = ["c", "b", "a", "d"] ∧
        list.Pairwise (run chainAndLast).Earlier := by
  have hacyclic : ∀ id, ¬ TransGen (run chainAndLast).Follows id id := by
    intro id hid
    have hne : ∀ p ∈ chainPairs, p.1 ≠ p.2 := by decide
    exact hne _ ((transGen_follows_chainAndLast id id).1 hid) rfl
  have htrans : (run chainAndLast).EarlierTrans := by
    have hids : (run chainAndLast).ids = ["d", "a", "b", "c"] := by decide +kernel
    have hplace : ∀ a ∈ (run chainAndLast).ids, ∀ b ∈ (run chainAndLast).ids,
        (run chainAndLast).Earlier a b ↔
          ["c", "b", "a", "d"].idxOf a < ["c", "b", "a", "d"].idxOf b := by
      simp only [Earlier, transGen_follows_chainAndLast, hids]
      decide +kernel
    intro a ha b hb c hc hab hbc
    rw [hplace a ha b hb] at hab
    rw [hplace b hb c hc] at hbc
    exact (hplace a ha c hc).2 (hab.trans hbc)
  obtain ⟨list, horder, -, hsorted, -⟩ :=
    pairwise_earlier_order_run chainAndLast ∅ hacyclic htrans
  have heq : ((run chainAndLast).order ∅).1 = some ["c", "b", "a", "d"] := by cbv
  rw [horder, Option.some.injEq] at heq
  exact ⟨hacyclic, htrans, list, horder, heq, hsorted⟩

end InstallerLinker.PrecedenceGraph
