/-
  Installer linker — what the search for cycles finds.

  The search keeps a path from its start on its stack, and what it has left for
  good leads only to what it has met.  So it returns to its start if there is a
  way at all.

  * `IsCycle` says what a cycle is, and `Searching` is the invariant of the
    search; `Searching.leave`, `Searching.enter` and `Searching.pass` are its
    steps;
  * `isCycle_of_findCycle` says that what is found is a cycle, and
    `isSome_findCycle_iff` that one is found wherever there is one;
  * `CyclesReported` relates what `reportCycles` has found and reported to the
    cycles, each of which counts once however it is turned; from it follow
    `reportCycles_of_acyclic` and `reportCycles_of_cycle`.
-/
import Mathlib.Data.List.Chain
import Mathlib.Logic.Relation
import InstallerLinker.PrecedenceGraph.Cycle
import InstallerLinker.Proofs.Arrivals
import InstallerLinker.Proofs.PrecedenceGraph.Coherence

namespace InstallerLinker.PrecedenceGraph
open Relation

variable {g : PrecedenceGraph} {start : Nat} {seen : IndexSet}

/-! ## One search -/

/-- A list of distinct positions, each of which must come after the next and the
    last one after the first, which is `start`. -/
structure IsCycle (g : PrecedenceGraph) (start : Nat) (cycle : List Nat) : Prop where
  head : cycle.head? = some start
  nodup : cycle.Nodup
  chain : (cycle ++ [start]).IsChain g.Edge

/-- A search that began with `start`: the stack is a path from there, and what has
    been seen leads to what has been seen or is still to be followed. -/
structure Searching (g : PrecedenceGraph) (start : Nat) (seen : IndexSet)
    (stack : List PathFrame) : Prop where
  capacity : seen.capacity = g.size
  bottom : (stack.map (·.position)).getLast?.getD start = start
  chain : (stack.map (·.position)).IsChain fun i j => g.Edge j i
  nodup : (stack.map (·.position)).Nodup
  targets : ∀ f ∈ stack, ∀ j ∈ f.targets, g.Edge f.position j
  seen_stack : ∀ f ∈ stack, seen.contains f.position = true
  seen_start : seen.contains start = true
  explored : ∀ {i j}, seen.contains i = true → g.Edge i j →
    (j ≠ start ∧ seen.contains j = true) ∨ ∃ f ∈ stack, f.position = i ∧ j ∈ f.targets

namespace Searching

variable {i j : Nat} {js : List Nat} {below : List PathFrame}

theorem leave (h : Searching g start seen (⟨i, []⟩ :: below)) : Searching g start seen below where
  capacity := h.capacity
  bottom := by
    have := h.bottom
    cases below with
    | nil => rfl
    | cons f below => exact this
  chain := h.chain.tail
  nodup := (List.nodup_cons.1 h.nodup).2
  targets f hf := h.targets f (List.mem_cons_of_mem _ hf)
  seen_stack f hf := h.seen_stack f (List.mem_cons_of_mem _ hf)
  seen_start := h.seen_start
  explored {k m} hk hkm := by
    rcases h.explored hk hkm with hm | ⟨f, hf, hfk, hfm⟩
    · exact Or.inl hm
    · rcases List.mem_cons.1 hf with rfl | hf
      · exact absurd hfm List.not_mem_nil
      · exact Or.inr ⟨f, hf, hfk, hfm⟩

/-- What is to be followed on a stack is the next target of its top or remains to
    be followed after that. -/
theorem pending_cases {k m : Nat}
    (h : ∃ f ∈ (⟨i, j :: js⟩ : PathFrame) :: below, f.position = k ∧ m ∈ f.targets) :
    m = j ∨ ∃ f ∈ (⟨i, js⟩ : PathFrame) :: below, f.position = k ∧ m ∈ f.targets := by
  obtain ⟨f, hf, hfk, hfm⟩ := h
  rcases List.mem_cons.1 hf with rfl | hf
  · rcases List.mem_cons.1 hfm with rfl | hfm
    · exact Or.inl rfl
    · exact Or.inr ⟨_, List.mem_cons_self .., hfk, hfm⟩
  · exact Or.inr ⟨f, List.mem_cons_of_mem _ hf, hfk, hfm⟩

theorem pass (h : Searching g start seen (⟨i, j :: js⟩ :: below)) (hj : j ≠ start)
    (hseen : seen.contains j = true) : Searching g start seen (⟨i, js⟩ :: below) where
  capacity := h.capacity
  bottom := h.bottom
  chain := h.chain
  nodup := h.nodup
  targets f hf := by
    rcases List.mem_cons.1 hf with rfl | hf
    · exact fun m hm => h.targets _ (List.mem_cons_self ..) m (List.mem_cons_of_mem _ hm)
    · exact h.targets f (List.mem_cons_of_mem _ hf)
  seen_stack f hf := by
    rcases List.mem_cons.1 hf with rfl | hf
    · exact h.seen_stack ⟨i, j :: js⟩ (List.mem_cons_self ..)
    · exact h.seen_stack f (List.mem_cons_of_mem _ hf)
  seen_start := h.seen_start
  explored {k m} hk hkm := by
    rcases h.explored hk hkm with hm | hm
    · exact Or.inl hm
    · rcases pending_cases hm with rfl | hm
      · exact Or.inl ⟨hj, hseen⟩
      · exact Or.inr hm

theorem enter (h : Searching g start seen (⟨i, j :: js⟩ :: below)) (hj : j ≠ start)
    (hfree : seen.isFree j = true) :
    Searching g start (seen.insert j) (⟨j, g.targetsAt j⟩ :: ⟨i, js⟩ :: below) := by
  have hnew := ((IndexSet.isFree_eq_true_iff j).1 hfree).2
  have hij : g.Edge i j := h.targets _ (List.mem_cons_self ..) j (List.mem_cons_self ..)
  have hcontains := IndexSet.contains_insert_of_isFree hfree
  refine ⟨by rw [IndexSet.capacity_insert, h.capacity], ?_, ?_, ?_, ?_, ?_, ?_, ?_⟩
  · have := h.bottom
    rwa [List.map_cons, List.map_cons, List.getLast?_cons_cons, ← List.map_cons]
  · exact List.isChain_cons_cons.2 ⟨hij, h.chain⟩
  · refine List.nodup_cons.2 ⟨fun hmem => ?_, h.nodup⟩
    obtain ⟨f, hf, hfj⟩ := List.mem_map.1 (show j ∈ ((⟨i, j :: js⟩ :: below).map
      (·.position)) from hmem)
    rw [← hfj, h.seen_stack f hf] at hnew
    cases hnew
  · intro f hf
    rcases List.mem_cons.1 hf with rfl | hf
    · exact fun m hm => hm
    · rcases List.mem_cons.1 hf with rfl | hf
      · exact fun m hm => h.targets _ (List.mem_cons_self ..) m (List.mem_cons_of_mem _ hm)
      · exact h.targets f (List.mem_cons_of_mem _ hf)
  · intro f hf
    rcases List.mem_cons.1 hf with rfl | hf
    · exact (hcontains _).2 (Or.inr rfl)
    · rcases List.mem_cons.1 hf with rfl | hf
      · exact (hcontains _).2 (Or.inl (h.seen_stack ⟨i, j :: js⟩ (List.mem_cons_self ..)))
      · exact (hcontains _).2 (Or.inl (h.seen_stack f (List.mem_cons_of_mem _ hf)))
  · exact (hcontains _).2 (Or.inl h.seen_start)
  · intro k m hk hkm
    rcases (hcontains k).1 hk with hk | rfl
    · rcases h.explored hk hkm with ⟨hm, hm'⟩ | hm
      · exact Or.inl ⟨hm, (hcontains m).2 (Or.inl hm')⟩
      · rcases pending_cases hm with rfl | ⟨f, hf, hfk, hfm⟩
        · exact Or.inl ⟨hj, (hcontains m).2 (Or.inr rfl)⟩
        · exact Or.inr ⟨f, List.mem_cons_of_mem _ hf, hfk, hfm⟩
    · exact Or.inr ⟨_, List.mem_cons_self .., rfl, hkm⟩

theorem isCycle (h : Searching g start seen (⟨i, start :: js⟩ :: below)) :
    g.IsCycle start (pathOf (⟨i, js⟩ :: below)) where
  head := by
    have := h.bottom
    rw [pathOf, List.head?_reverse]
    rw [List.map_cons] at this ⊢
    cases hlast : (i :: below.map (·.position)).getLast? with
    | none => simp at hlast
    | some k => rw [hlast] at this; exact congrArg some this
  nodup := List.nodup_reverse.2 h.nodup
  chain := by
    rw [pathOf, ← List.reverse_cons, List.isChain_reverse]
    have hback : g.Edge i start := h.targets _ (List.mem_cons_self ..) _ (List.mem_cons_self ..)
    exact List.isChain_cons_cons.2 ⟨hback, h.chain⟩

/-- With nothing left to follow there is no way back to the start. -/
theorem not_transGen (h : Searching g start seen []) : ¬ TransGen g.Edge start start := by
  intro hcycle
  obtain ⟨k, hk, hback⟩ := TransGen.tail'_iff.1 hcycle
  have hseen : seen.contains k = true := by
    clear hback
    induction hk with
    | refl => exact h.seen_start
    | tail _ hstep ih =>
      rcases h.explored ih hstep with hm | ⟨f, hf, -⟩
      · exact hm.2
      · exact absurd hf List.not_mem_nil
  rcases h.explored hseen hback with hm | ⟨f, hf, -⟩
  · exact hm.1 rfl
  · exact absurd hf List.not_mem_nil

end Searching

/-- A search finds a cycle, or there is none. -/
theorem searchCycle_spec (hg : g.Coherent) {stack : List PathFrame}
    (h : Searching g start seen stack) :
    (∃ cycle, g.searchCycle start seen stack = some cycle ∧ g.IsCycle start cycle) ∨
      (g.searchCycle start seen stack = none ∧ ¬ TransGen g.Edge start start) := by
  fun_induction searchCycle g start seen stack with
  | case1 seen => exact Or.inr ⟨rfl, h.not_transGen⟩
  | case2 seen i below ih => exact ih h.leave
  | case3 seen i js below => exact Or.inl ⟨_, rfl, h.isCycle⟩
  | case4 seen i j js below hj hfree ih => exact ih (h.enter hj hfree)
  | case5 seen i j js below hj hfree ih =>
    refine ih (h.pass hj (IndexSet.contains_of_not_isFree ?_ (Bool.eq_false_iff.2 hfree)))
    rw [h.capacity]
    exact hg.target_lt (h.targets _ (List.mem_cons_self ..) j (List.mem_cons_self ..))

theorem searching_start (hstart : start < g.size) :
    Searching g start ((IndexSet.empty g.size).insert start) [⟨start, g.targetsAt start⟩] := by
  have hcontains : ∀ k, ((IndexSet.empty g.size).insert start).contains k = true ↔ k = start := by
    intro k
    rw [IndexSet.contains_insert_iff, IndexSet.contains_empty, IndexSet.capacity_empty]
    exact ⟨fun hk => hk.elim nofun fun hk => hk.1, fun hk => Or.inr ⟨hk, hstart⟩⟩
  refine ⟨by simp, rfl, List.isChain_singleton _, List.pairwise_singleton _ _, ?_, ?_, ?_, ?_⟩
  · intro f hf
    obtain rfl := List.mem_singleton.1 hf
    exact fun j hj => hj
  · intro f hf
    obtain rfl := List.mem_singleton.1 hf
    exact (hcontains _).2 rfl
  · exact (hcontains _).2 rfl
  · intro i j hi hij
    obtain rfl := (hcontains i).1 hi
    exact Or.inr ⟨_, List.mem_singleton_self _, rfl, hij⟩

theorem findCycle_spec (hg : g.Coherent) (start : Nat) :
    (∃ cycle, g.findCycle start = some cycle ∧ g.IsCycle start cycle) ∨
      (g.findCycle start = none ∧ ¬ TransGen g.Edge start start) := by
  by_cases hstart : start < g.size
  · exact searchCycle_spec hg (searching_start hstart)
  · -- beyond the ids there are no constraints, so the search ends at once
    have hnil : g.targetsAt start = [] := by
      rw [targetsAt, constraintsAt_of_size_le (Nat.le_of_not_lt hstart), List.map_nil]
    refine Or.inr ⟨by rw [findCycle, hnil, searchCycle, searchCycle], fun h => ?_⟩
    exact hstart (lt_size_of_transGen h)

theorem isCycle_of_findCycle (hg : g.Coherent) {cycle : List Nat}
    (h : g.findCycle start = some cycle) : g.IsCycle start cycle := by
  rcases findCycle_spec hg start with ⟨cycle', hcycle', hc⟩ | ⟨hnone, -⟩
  · rw [h] at hcycle'
    cases hcycle'
    exact hc
  · rw [h] at hnone
    cases hnone

/-- What stands before an entry in a list without repetition. -/
theorem mem_of_pair_sublist {α : Type} {p s : List α} {x y : α} (hnodup : (p ++ y :: s).Nodup)
    (h : [x, y].Sublist (p ++ y :: s)) : x ∈ p := by
  obtain ⟨-, hys, hp⟩ := List.nodup_append.1 hnodup
  obtain ⟨l, l', hl, hlp, hls⟩ := List.sublist_append_iff.1 h
  match l, hl with
  | [], hl =>
    obtain rfl : [x, y] = l' := hl
    have hy : y ∈ s := (List.cons_sublist_cons'.1 hls).elim
      (fun h => h.subset (List.mem_cons_of_mem _ (List.mem_singleton_self y)))
      fun h => h.2.subset (List.mem_singleton_self y)
    exact absurd hy (List.nodup_cons.1 hys).1
  | z :: l, hl =>
    obtain ⟨rfl, -⟩ := List.cons_eq_cons.1 hl
    exact hlp.subset (List.mem_cons_self ..)

/-- The first entry of a chain leads to the last one. -/
theorem transGen_of_isChain {α : Type} {r : α → α → Prop} {a b : α} {l : List α}
    (h : (a :: (l ++ [b])).IsChain r) : TransGen r a b := by
  induction l generalizing a with
  | nil => exact .single (List.isChain_cons_cons.1 h).1
  | cons c l ih =>
    obtain ⟨hac, hl⟩ := List.isChain_cons_cons.1 h
    exact .head hac (ih hl)

theorem IsCycle.transGen {cycle : List Nat} (h : g.IsCycle start cycle) :
    TransGen g.Edge start start := by
  obtain ⟨rest, rfl⟩ := List.head?_eq_some_iff.1 h.head
  exact transGen_of_isChain h.chain

/-- The search finds a cycle wherever there is one. -/
theorem isSome_findCycle_iff (hg : g.Coherent) (start : Nat) :
    (g.findCycle start).isSome = true ↔ TransGen g.Edge start start := by
  rcases findCycle_spec hg start with ⟨cycle, hcycle, hc⟩ | ⟨hnone, hno⟩
  · rw [hcycle]
    exact ⟨fun _ => hc.transGen, fun _ => rfl⟩
  · rw [hnone]
    exact ⟨nofun, fun h => absurd h hno⟩

/-! ## The searches from all positions -/

/-- What has been found and reported from the positions below `n`.  Of the cycles
    that were found, `cycles` are those that were new, each with its start. -/
structure CyclesReported (g : PrecedenceGraph) (log : Log CircularConstraint) (n : Nat)
    (cycles : List (Nat × List Nat)) (p : List (List Nat) × Log CircularConstraint) : Prop where
  found : ∀ c ∈ cycles, c.1 < n ∧ g.findCycle c.1 = some c.2
  rotations : p.1.reverse = cycles.map fun c => canonicalRotation c.2
  nodup : p.1.Nodup
  log : p.2.toList = log.toList ++ cycles.map fun c => g.circularConstraint c.1 c.2
  covered : ∀ start cycle, start < n → g.findCycle start = some cycle → canonicalRotation cycle ∈ p.1

theorem CyclesReported.covered_succ {log : Log CircularConstraint} {n : Nat}
    {cycles : List (Nat × List Nat)} {p : List (List Nat) × Log CircularConstraint}
    (h : CyclesReported g log n cycles p) {found : List (List Nat)} (hfound : ∀ r ∈ p.1, r ∈ found)
    (hn : ∀ cycle, g.findCycle n = some cycle → canonicalRotation cycle ∈ found)
    (start : Nat) (cycle : List Nat) (hstart : start < n + 1)
    (hcycle : g.findCycle start = some cycle) : canonicalRotation cycle ∈ found := by
  rcases Nat.lt_succ_iff_lt_or_eq.1 hstart with hstart | rfl
  · exact hfound _ (h.covered start cycle hstart hcycle)
  · exact hn cycle hcycle

theorem CyclesReported.reportCycle {log : Log CircularConstraint} {n : Nat}
    {cycles : List (Nat × List Nat)} {p : List (List Nat) × Log CircularConstraint}
    (h : CyclesReported g log n cycles p) :
    ∃ cycles', CyclesReported g log (n + 1) cycles' (g.reportCycle p.1 p.2 n) := by
  have hfound : ∀ c ∈ cycles, c.1 < n + 1 ∧ g.findCycle c.1 = some c.2 := fun c hc =>
    ⟨Nat.lt_succ_of_lt (h.found c hc).1, (h.found c hc).2⟩
  unfold PrecedenceGraph.reportCycle
  cases hn : g.findCycle n with
  | none =>
    refine ⟨cycles, hfound, h.rotations, h.nodup, h.log, ?_⟩
    refine h.covered_succ (fun r hr => hr) ?_
    intro cycle hcycle
    rw [hn] at hcycle
    cases hcycle
  | some cycle =>
    dsimp only
    split
    · next hold =>
      refine ⟨cycles, hfound, h.rotations, h.nodup, h.log, ?_⟩
      refine h.covered_succ (fun r hr => hr) ?_
      intro cycle' hcycle'
      rw [hn] at hcycle'
      cases hcycle'
      exact List.contains_iff_mem.1 hold
    · next hnew =>
      refine ⟨cycles ++ [(n, cycle)], ?_, ?_, ?_, ?_, ?_⟩
      · intro c hc
        rcases List.mem_append.1 hc with hc | hc
        · exact hfound c hc
        · rw [List.mem_singleton.1 hc]
          exact ⟨Nat.lt_succ_self n, hn⟩
      · simp [h.rotations]
      · exact List.nodup_cons.2 ⟨fun hmem => hnew (List.contains_iff_mem.2 hmem), h.nodup⟩
      · simp [h.log]
      · refine h.covered_succ (fun r hr => List.mem_cons_of_mem _ hr) ?_
        intro cycle' hcycle'
        rw [hn] at hcycle'
        cases hcycle'
        exact List.mem_cons_self ..

theorem exists_cyclesReported (g : PrecedenceGraph) (log : Log CircularConstraint) (n : Nat) :
    ∃ cycles, CyclesReported g log n cycles
      ((List.range n).foldl (fun p start => g.reportCycle p.1 p.2 start) ([], log)) := by
  induction n with
  | zero => exact ⟨[], nofun, rfl, List.nodup_nil, by simp, nofun⟩
  | succ n ih =>
    obtain ⟨cycles, h⟩ := ih
    rw [List.range_succ, List.foldl_append]
    exact h.reportCycle

/-- Without cycles nothing is reported. -/
theorem reportCycles_of_acyclic (hg : g.Coherent) (log : Log CircularConstraint)
    (hacyclic : ∀ i, ¬ TransGen g.Edge i i) : g.reportCycles log = (0, log) := by
  obtain ⟨cycles, h⟩ := exists_cyclesReported g log g.size
  have hnil : cycles = [] := by
    refine List.eq_nil_iff_forall_not_mem.2 fun c hc => hacyclic c.1 ?_
    exact (isCycle_of_findCycle hg (h.found c hc).2).transGen
  have hrotations := h.rotations
  have hlog := h.log
  rw [hnil, List.map_nil] at hrotations hlog
  rw [List.append_nil] at hlog
  rw [reportCycles]
  exact Prod.ext (congrArg List.length (List.reverse_eq_nil_iff.1 hrotations)) (Log.ext hlog)

/-- If there is a cycle, some are reported, and the number counts them. -/
theorem reportCycles_of_cycle (hg : g.Coherent) (log : Log CircularConstraint) {i : Nat}
    (hcycle : TransGen g.Edge i i) :
    ∃ c cs, (g.reportCycles log).1 = cs.length + 1 ∧
      (g.reportCycles log).2.toList = log.toList ++ c :: cs := by
  obtain ⟨cycles, h⟩ := exists_cyclesReported g log g.size
  obtain ⟨cycle, hfind⟩ := Option.isSome_iff_exists.1 ((isSome_findCycle_iff hg i).2 hcycle)
  have hmem := h.covered i cycle (lt_size_of_transGen hcycle) hfind
  rw [← List.mem_reverse, h.rotations] at hmem
  have hlength := congrArg List.length h.rotations
  rw [List.length_reverse, List.length_map] at hlength
  cases cycles with
  | nil => exact absurd hmem List.not_mem_nil
  | cons c cycles =>
    refine ⟨g.circularConstraint c.1 c.2, cycles.map fun c => g.circularConstraint c.1 c.2, ?_, ?_⟩
    · rw [List.length_map]
      exact hlength
    · exact h.log

end InstallerLinker.PrecedenceGraph
