/-
  Installer linker — what the order of a graph contains.

  While the order is built, each id counts what it still waits for.  The counts
  are exact, so an id is placed when all that it must follow has been placed, and
  those that are never placed lead to a cycle.

  * `followers_getD` says what the table of followers holds;
  * `Balanced` relates the counts and the ids that are ready to what has been
    placed; it holds before each count, `Balanced.release`;
  * `Legal` says that what is placed comes after all that it must follow, and
    `Placing` is the invariant of the whole construction, `Placing.placeNext`
    its step;
  * `Grounded` are the positions that lead to no cycle; `mem_sorted_iff` says that
    these are the ones placed in the end, and `sublist_sorted` in which order.
-/
import Mathlib.Data.Fintype.EquivFin
import Mathlib.Data.List.Count
import Mathlib.Logic.Relation
import InstallerLinker.PrecedenceGraph.Sorting
import InstallerLinker.Proofs.PrecedenceGraph.Coherence

namespace InstallerLinker.PrecedenceGraph
open Relation

variable {g : PrecedenceGraph}

/-! ## The table of followers -/

theorem getElem?_foldl_modify {i : Nat} {js : List Nat} (hjs : js.Nodup) (table : Array (List Nat))
    (m : Nat) : (js.foldl (fun table j => table.modify j (i :: ·)) table)[m]? =
      table[m]?.map fun l => if m ∈ js then i :: l else l := by
  induction js generalizing table with
  | nil => simp
  | cons j js ih =>
    obtain ⟨hj, hjs⟩ := List.nodup_cons.1 hjs
    rw [List.foldl_cons, ih hjs, Array.getElem?_modify]
    by_cases hm : j = m
    · subst hm
      rw [if_pos rfl, Option.map_map]
      refine Option.map_congr fun l _ => ?_
      simp [hj]
    · rw [if_neg hm]
      refine Option.map_congr fun l _ => ?_
      simp [Ne.symm hm]

/-- The table holds, at each position, those that must come after it. -/
theorem followers_getD (hg : g.Coherent) {m : Nat} (hm : m < g.size) :
    g.followers.getD m [] = ((List.range g.size).filter fun i => g.Edge i m).reverse := by
  have h : ∀ n, ((List.range n).foldl (fun table i =>
      (g.targetsAt i).foldl (fun table j => table.modify j (i :: ·)) table)
        (Array.replicate g.size []))[m]? = some ((List.range n).filter fun i => g.Edge i m).reverse := by
    intro n
    induction n with
    | zero => simp [hm]
    | succ n ih =>
      rw [List.range_succ, List.foldl_append, List.foldl_cons, List.foldl_nil,
        getElem?_foldl_modify (hg.nodup_targets n), ih, List.filter_append]
      by_cases hn : g.Edge n m
      · have hn' : m ∈ g.targetsAt n := hn
        simp [hn, hn']
      · have hn' : m ∉ g.targetsAt n := hn
        simp [hn, hn']
  rw [followers, Array.getD_eq_getD_getElem?, h g.size, Option.getD_some]

/-! ## Counting -/

/-- How many of the positions that `i` must come after are not placed. -/
def unmet (g : PrecedenceGraph) (placed : Array Nat) (i : Nat) : Nat :=
  (g.targetsAt i).countP fun j => !placed.contains j

theorem unmet_eq_zero_iff {placed : Array Nat} {i : Nat} :
    g.unmet placed i = 0 ↔ ∀ j, g.Edge i j → j ∈ placed := by
  simp [unmet, List.countP_eq_zero, Edge]

theorem unmet_push (hg : g.Coherent) {placed : Array Nat} {i : Nat} (hi : i ∉ placed) (k : Nat) :
    g.unmet placed k = g.unmet (placed.push i) k + if g.Edge k i then 1 else 0 := by
  have hcount : ∀ js : List Nat, js.Nodup →
      js.countP (fun j => !placed.contains j) =
        js.countP (fun j => !(placed.push i).contains j) + if i ∈ js then 1 else 0 := by
    intro js hjs
    induction js with
    | nil => rfl
    | cons j js ih =>
      obtain ⟨hj, hjs⟩ := List.nodup_cons.1 hjs
      rw [List.countP_cons, List.countP_cons, ih hjs]
      by_cases hij : i = j
      · subst hij
        simp [hi, hj]
      · have hpush : (placed.push i).contains j = placed.contains j := by
          rw [Bool.eq_iff_iff]
          simp [Ne.symm hij]
        simp only [hpush, List.mem_cons, hij, false_or]
        omega
  exact hcount _ (hg.nodup_targets k)

/-- Each position waits for as many others as are not placed, and for one more if
    it has not been released since the last one was.  Those that are not placed
    and wait for none are ready. -/
structure Balanced (g : PrecedenceGraph) (unreleased : List Nat) (s : Sorter) : Prop where
  size : s.waiting.size = g.size
  nodup : unreleased.Nodup
  lt_size : ∀ i ∈ unreleased, i < g.size
  unplaced : ∀ i ∈ unreleased, i ∉ s.placed
  waiting : ∀ {i}, i < g.size →
    s.waiting.getD i 0 = g.unmet s.placed i + if i ∈ unreleased then 1 else 0
  mem_ready_iff : ∀ {i}, i ∈ s.ready ↔ i < g.size ∧ i ∉ s.placed ∧ s.waiting.getD i 0 = 0
  nodup_ready : s.ready.Nodup

theorem insertReady_perm (g : PrecedenceGraph) (i : Nat) (js : List Nat) :
    (g.insertReady i js).Perm (i :: js) := by
  induction js with
  | nil => exact List.Perm.refl _
  | cons j js ih =>
    rw [insertReady]
    split
    · exact List.Perm.refl _
    · exact (ih.cons j).trans (List.Perm.swap i j js)

theorem getD_setIfInBounds {ns : Array Nat} {i : Nat} (hi : i < ns.size) (n k : Nat) :
    (ns.setIfInBounds i n).getD k 0 = if i = k then n else ns.getD k 0 := by
  rw [Array.getD_eq_getD_getElem?, Array.getElem?_setIfInBounds, Array.getD_eq_getD_getElem?]
  by_cases hk : i = k
  · simp [hk, hk ▸ hi]
  · simp [hk]

theorem release_of_getD {s : Sorter} {i n : Nat} (h : s.waiting.getD i 0 = n + 1) :
    g.release s i = ⟨s.waiting.setIfInBounds i n,
      if n = 0 then g.insertReady i s.ready else s.ready, s.placed⟩ := by
  obtain ⟨waiting, ready, placed⟩ := s
  simp only at h
  simp only [PrecedenceGraph.release, h]

/-- To release a position makes up for the one more that it waits for. -/
theorem Balanced.release {s : Sorter} {i : Nat} {unreleased : List Nat}
    (h : Balanced g (i :: unreleased) s) :
    Balanced g unreleased (g.release s i) ∧ (g.release s i).placed = s.placed := by
  obtain ⟨hnew, hnodup⟩ := List.nodup_cons.1 h.nodup
  have hi : i < g.size := h.lt_size i (List.mem_cons_self ..)
  have hwait : s.waiting.getD i 0 = g.unmet s.placed i + 1 := by
    rw [h.waiting hi, if_pos (List.mem_cons_self ..)]
  have hunplaced : i ∉ s.placed := h.unplaced i (List.mem_cons_self ..)
  have hready : i ∉ s.ready := fun hmem => by
    have := (h.mem_ready_iff.1 hmem).2.2
    omega
  have hgetD := getD_setIfInBounds (h.size ▸ hi : i < s.waiting.size) (g.unmet s.placed i)
  have hmem : ∀ {k}, (k ∈ if g.unmet s.placed i = 0 then g.insertReady i s.ready else s.ready) ↔
      (k = i ∧ g.unmet s.placed i = 0) ∨ k ∈ s.ready := by
    intro k
    split
    · next hzero => rw [(g.insertReady_perm i s.ready).mem_iff, List.mem_cons, and_iff_left hzero]
    · next hzero => exact ⟨Or.inr, fun hk => hk.resolve_left fun hk => hzero hk.2⟩
  rw [release_of_getD hwait]
  refine ⟨⟨by simpa using h.size, hnodup, fun k hk => h.lt_size k (List.mem_cons_of_mem _ hk),
    fun k hk => h.unplaced k (List.mem_cons_of_mem _ hk), ?_, ?_, ?_⟩, rfl⟩
  · intro k hk
    simp only [hgetD]
    split
    · next hik => rw [← hik, if_neg hnew, Nat.add_zero]
    · next hik =>
      rw [h.waiting hk]
      simp [Ne.symm hik]
  · intro k
    simp only [hmem, hgetD, h.mem_ready_iff]
    by_cases hik : i = k
    · subst hik
      rw [if_pos rfl, hwait]
      constructor
      · rintro (⟨-, hzero⟩ | ⟨-, -, hzero⟩)
        · exact ⟨hi, hunplaced, hzero⟩
        · exact absurd hzero (Nat.succ_ne_zero _)
      · exact fun hzero => Or.inl ⟨rfl, hzero.2.2⟩
    · rw [if_neg hik, or_iff_right fun hk => hik hk.1.symm]
  · simp only
    split
    · exact (g.insertReady_perm i s.ready).nodup_iff.2 (List.nodup_cons.2 ⟨hready, h.nodup_ready⟩)
    · exact h.nodup_ready

theorem Balanced.foldl_release {unreleased : List Nat} {s : Sorter} (h : Balanced g unreleased s) :
    Balanced g [] (unreleased.foldl g.release s) ∧
      (unreleased.foldl g.release s).placed = s.placed := by
  induction unreleased generalizing s with
  | nil => exact ⟨h, rfl⟩
  | cons i unreleased ih =>
    obtain ⟨hbalanced, hplaced⟩ := h.release
    obtain ⟨h1, h2⟩ := ih hbalanced
    exact ⟨h1, h2.trans hplaced⟩

/-! ## Placing -/

/-- In a list, each position comes after all that it must follow. -/
def Legal (g : PrecedenceGraph) (placed : List Nat) : Prop :=
  ∀ before i, before ++ [i] <+: placed → ∀ j, g.Edge i j → j ∈ before

/-- The entry at the end of a prefix is the last one of the list or an earlier
    one. -/
theorem prefix_append_singleton_cases {placed before : List Nat} {i k : Nat}
    (h : before ++ [k] <+: placed ++ [i]) :
    (before = placed ∧ k = i) ∨ before ++ [k] <+: placed := by
  rcases List.prefix_concat_iff.1 h with h | h
  · obtain ⟨hbefore, hk⟩ := List.append_inj' h rfl
    exact Or.inl ⟨hbefore, List.singleton_inj.1 hk⟩
  · exact Or.inr h

theorem Legal.append_singleton {placed : List Nat} (h : g.Legal placed) {i : Nat}
    (hi : ∀ j, g.Edge i j → j ∈ placed) : g.Legal (placed ++ [i]) := by
  intro before k hk
  rcases prefix_append_singleton_cases hk with ⟨rfl, rfl⟩ | hk
  · exact hi
  · exact h before k hk

theorem exists_prefix_of_mem {placed : List Nat} {i : Nat} (h : i ∈ placed) :
    ∃ before, before ++ [i] <+: placed := by
  obtain ⟨before, after, rfl⟩ := List.append_of_mem h
  exact ⟨before, after, by simp⟩

/-- A list without repetition does not have its entry earlier. -/
theorem not_mem_of_prefix {placed before : List Nat} {i : Nat} (hnodup : placed.Nodup)
    (h : before ++ [i] <+: placed) : i ∉ before := by
  have honce : (before ++ [i]).Nodup := hnodup.sublist h.sublist
  rw [← List.concat_eq_append, List.nodup_concat] at honce
  exact honce.1

/-- What a position leads to has come before it. -/
theorem Legal.mem_before {placed before : List Nat} (h : g.Legal placed) {i j : Nat}
    (hi : before ++ [i] <+: placed) (hij : TransGen g.Edge i j) : j ∈ before := by
  induction hij with
  | single hstep => exact h before i hi _ hstep
  | tail _ hstep ih =>
    obtain ⟨earlier, hearlier⟩ := exists_prefix_of_mem ih
    have hk := h earlier _ ((hearlier.trans (List.prefix_append _ _)).trans hi) _ hstep
    exact hearlier.subset (List.mem_append_left _ hk)

/-- The counts are exact, and what has been placed is in a legal order. -/
structure Placing (g : PrecedenceGraph) (s : Sorter) : Prop where
  balanced : Balanced g [] s
  nodup : s.placed.toList.Nodup
  lt_size : ∀ i ∈ s.placed, i < g.size
  legal : g.Legal s.placed.toList

theorem Placing.mem_ready_iff {s : Sorter} (h : Placing g s) {i : Nat} :
    i ∈ s.ready ↔ i < g.size ∧ i ∉ s.placed ∧ ∀ j, g.Edge i j → j ∈ s.placed := by
  rw [h.balanced.mem_ready_iff, ← unmet_eq_zero_iff]
  refine and_congr_right fun hi => and_congr_right fun _ => ?_
  rw [h.balanced.waiting hi, if_neg List.not_mem_nil, Nat.add_zero]

/-- To place a position makes those that must come after it unreleased. -/
theorem Placing.balanced_push (hg : g.Coherent) {waiting : Array Nat} {i : Nat} {ready : List Nat}
    {placed : Array Nat} (h : Placing g ⟨waiting, i :: ready, placed⟩) :
    Balanced g (g.followers.getD i []) ⟨waiting, ready, placed.push i⟩ := by
  obtain ⟨hi, hnew, htargets⟩ := h.mem_ready_iff.1 (List.mem_cons_self ..)
  obtain ⟨hnotready, hnodup⟩ := List.nodup_cons.1 h.balanced.nodup_ready
  have hmem : ∀ k, k ∈ g.followers.getD i [] ↔ g.Edge k i := by
    intro k
    rw [followers_getD hg hi, List.mem_reverse, List.mem_filter, List.mem_range, decide_eq_true_eq]
    exact ⟨fun hk => hk.2, fun hk => ⟨hk.lt_size, hk⟩⟩
  have hself : ¬ g.Edge i i := fun hii => hnew (htargets i hii)
  refine ⟨h.balanced.size, ?_, ?_, ?_, ?_, ?_, hnodup⟩
  · rw [followers_getD hg hi]
    exact List.nodup_reverse.2 (List.nodup_range.filter _)
  · intro k hk
    exact ((hmem k).1 hk).lt_size
  · -- what has been placed is legal, so nothing in it can wait for `i`
    intro k hk hplaced
    rw [hmem] at hk
    rcases Array.mem_push.1 hplaced with hplaced | rfl
    · obtain ⟨before, hbefore⟩ := exists_prefix_of_mem (Array.mem_toList_iff.2 hplaced)
      have hmem := h.legal before k hbefore i hk
      exact hnew (Array.mem_toList_iff.1 (hbefore.subset (List.mem_append_left _ hmem)))
    · exact hself hk
  · intro k hk
    have hwaiting := h.balanced.waiting hk
    rw [if_neg List.not_mem_nil, Nat.add_zero, unmet_push hg hnew] at hwaiting
    simp only [hmem]
    exact hwaiting
  · intro k
    have hready := h.balanced.mem_ready_iff (i := k)
    rw [List.mem_cons] at hready
    simp only [Array.mem_push, not_or]
    constructor
    · intro hk
      obtain ⟨hlt, hk', hzero⟩ := hready.1 (Or.inr hk)
      exact ⟨hlt, ⟨hk', fun hki => hnotready (hki ▸ hk)⟩, hzero⟩
    · rintro ⟨hlt, ⟨hk, hki⟩, hzero⟩
      exact (hready.2 ⟨hlt, hk, hzero⟩).resolve_left hki

theorem Placing.placed_placeNext (hg : g.Coherent) {waiting : Array Nat} {i : Nat}
    {ready : List Nat} {placed : Array Nat} (h : Placing g ⟨waiting, i :: ready, placed⟩) :
    (g.placeNext g.followers waiting i ready placed).placed = placed.push i :=
  (h.balanced_push hg).foldl_release.2

theorem Placing.placeNext (hg : g.Coherent) {waiting : Array Nat} {i : Nat} {ready : List Nat}
    {placed : Array Nat} (h : Placing g ⟨waiting, i :: ready, placed⟩) :
    Placing g (g.placeNext g.followers waiting i ready placed) := by
  obtain ⟨hi, hnew, htargets⟩ := h.mem_ready_iff.1 (List.mem_cons_self ..)
  have hplaced := h.placed_placeNext hg
  refine ⟨(h.balanced_push hg).foldl_release.1, ?_, ?_, ?_⟩
  · rw [hplaced, Array.toList_push]
    rw [← List.concat_eq_append]
    exact h.nodup.concat fun hmem => hnew (Array.mem_toList_iff.1 hmem)
  · intro k hk
    rw [hplaced] at hk
    rcases Array.mem_push.1 hk with hk | rfl
    · exact h.lt_size k hk
    · exact hi
  · rw [hplaced, Array.toList_push]
    exact h.legal.append_singleton fun j hj => Array.mem_toList_iff.2 (htargets j hj)

theorem placing_sortStart (g : PrecedenceGraph) : Placing g g.sortStart where
  balanced := by
    have hgetD : ∀ i, (g.vertices.map (·.constraints.length)).getD i 0 = (g.targetsAt i).length := by
      intro i
      rw [Array.getD_eq_getD_getElem?, Array.getElem?_map, targetsAt, List.length_map, constraintsAt]
      cases g.vertices[i]? <;> rfl
    have hperm := List.mergeSort_perm
      ((List.range g.size).filter fun i => (g.constraintsAt i).isEmpty)
      fun i j => decide (g.idAt i ≤ g.idAt j)
    refine ⟨by simp [sortStart, size], List.nodup_nil, by simp, by simp, ?_, ?_,
      hperm.nodup_iff.2 (List.nodup_range.filter _)⟩
    · intro i hi
      simp only [sortStart]
      rw [hgetD, if_neg List.not_mem_nil, Nat.add_zero, unmet, List.countP_eq_length.2]
      simp
    · intro i
      simp only [sortStart]
      rw [hperm.mem_iff, hgetD, List.mem_filter, List.mem_range, targetsAt, List.length_map]
      simp
  nodup := List.nodup_nil
  lt_size i hi := absurd hi (Array.not_mem_empty i)
  legal before i h := by
    have := List.prefix_nil.1 h
    simp at this

/-- In the end nothing is ready. -/
theorem placing_sortRun (hg : g.Coherent) {s : Sorter} (h : Placing g s) :
    Placing g (g.sortRun g.followers s) ∧ (g.sortRun g.followers s).ready = [] := by
  fun_induction sortRun g g.followers s with
  | case1 waiting placed => exact ⟨h, rfl⟩
  | case2 waiting i ready placed ih => exact ih (h.placeNext hg)

/-! ## Positions that lead to no cycle -/

/-- A position leads to no cycle and is on none. -/
def Grounded (g : PrecedenceGraph) (i : Nat) : Prop :=
  ∀ j, ReflTransGen g.Edge i j → ¬ TransGen g.Edge j j

theorem Grounded.of_edge {i j : Nat} (h : g.Grounded i) (hij : g.Edge i j) : g.Grounded j :=
  fun k hjk => h k (.head hij hjk)

/-- A grounded position `b` leads to the position `a`. -/
def LeadsDown (g : PrecedenceGraph) (a b : Fin g.size) : Prop :=
  g.Grounded b ∧ TransGen g.Edge b a

theorem wellFounded_leadsDown (g : PrecedenceGraph) : WellFounded g.LeadsDown := by
  have : IsTrans (Fin g.size) g.LeadsDown := ⟨fun _ _ _ hab hbc => ⟨hbc.1, hbc.2.trans hab.2⟩⟩
  have : Std.Irrefl g.LeadsDown := ⟨fun a ha => ha.1 a .refl ha.2⟩
  exact Finite.wellFounded_of_trans_of_irrefl g.LeadsDown

/-- To show something of the grounded positions, show it of each under the
    assumption that it holds of all that must come before it. -/
theorem Grounded.induct (hg : g.Coherent) {P : Nat → Prop}
    (step : ∀ i, i < g.size → g.Grounded i → (∀ j, g.Edge i j → P j) → P i) {i : Nat}
    (hi : i < g.size) (h : g.Grounded i) : P i := by
  suffices hall : ∀ a : Fin g.size, g.Grounded a → P a from hall ⟨i, hi⟩ h
  intro a
  induction a using g.wellFounded_leadsDown.induction with
  | _ a ih =>
    intro ha
    exact step a a.isLt ha fun j hj => ih ⟨j, hg.target_lt hj⟩ ⟨ha, .single hj⟩ (ha.of_edge hj)

/-! ## The result -/

/-- What is placed in a legal order is grounded. -/
theorem Legal.grounded {placed : List Nat} (h : g.Legal placed) (hnodup : placed.Nodup) {i : Nat}
    (hi : i ∈ placed) : g.Grounded i := by
  intro j hij hj
  have hjplaced : j ∈ placed := by
    rcases reflTransGen_iff_eq_or_transGen.1 hij with rfl | hij
    · exact hi
    · obtain ⟨before, hbefore⟩ := exists_prefix_of_mem hi
      exact hbefore.subset (List.mem_append_left _ (h.mem_before hbefore hij))
  obtain ⟨before, hbefore⟩ := exists_prefix_of_mem hjplaced
  exact not_mem_of_prefix hnodup hbefore (h.mem_before hbefore hj)

/-- The positions placed in the end are the grounded ones. -/
theorem mem_placed_iff (hg : g.Coherent) {i : Nat} :
    i ∈ (g.sortRun g.followers g.sortStart).placed ↔ i < g.size ∧ g.Grounded i := by
  obtain ⟨h, hready⟩ := placing_sortRun hg (placing_sortStart g)
  constructor
  · exact fun hi => ⟨h.lt_size i hi, h.legal.grounded h.nodup (Array.mem_toList_iff.2 hi)⟩
  · rintro ⟨hi, hgrounded⟩
    refine hgrounded.induct hg (fun k hk _ htargets => ?_) hi
    by_contra hnew
    have hmem := h.mem_ready_iff.2 ⟨hk, hnew, htargets⟩
    rw [hready] at hmem
    exact absurd hmem List.not_mem_nil

/-- The positions of the ids in the order. -/
def sortedPositions (g : PrecedenceGraph) : List Nat :=
  (g.sortRun g.followers g.sortStart).placed.toList

theorem sorted_eq (g : PrecedenceGraph) : g.sorted = g.sortedPositions.map g.idAt := rfl

theorem mem_sorted_iff (hg : g.Coherent) {i : Nat} (hi : i < g.size) :
    g.idAt i ∈ g.sorted ↔ g.Grounded i := by
  obtain ⟨h, -⟩ := placing_sortRun hg (placing_sortStart g)
  rw [sorted_eq, List.mem_map]
  constructor
  · rintro ⟨k, hk, hki⟩
    have hk := Array.mem_toList_iff.1 hk
    rw [← hg.idAt_inj (h.lt_size k hk) hi hki]
    exact ((mem_placed_iff hg).1 hk).2
  · exact fun h => ⟨i, Array.mem_toList_iff.2 ((mem_placed_iff hg).2 ⟨hi, h⟩), rfl⟩

theorem nodup_sorted (hg : g.Coherent) : g.sorted.Nodup := by
  obtain ⟨h, -⟩ := placing_sortRun hg (placing_sortStart g)
  refine (List.nodup_map_iff_inj_on h.nodup).2 ?_
  intro i hi j hj hij
  have hilt := h.lt_size i (Array.mem_toList_iff.1 hi)
  exact hg.idAt_inj hilt (h.lt_size j (Array.mem_toList_iff.1 hj)) hij

theorem mem_ids_of_mem_sorted (hg : g.Coherent) {id : String} (hid : id ∈ g.sorted) :
    id ∈ g.ids := by
  obtain ⟨h, -⟩ := placing_sortRun hg (placing_sortStart g)
  obtain ⟨i, hi, rfl⟩ := List.mem_map.1 hid
  exact idAt_mem_ids (h.lt_size i (Array.mem_toList_iff.1 hi))

/-- Where nothing must follow itself, all ids are placed. -/
theorem sorted_perm_ids (hg : g.Coherent) (hacyclic : ∀ i, ¬ TransGen g.Edge i i) :
    g.sorted.Perm g.ids := by
  refine (List.perm_ext_iff_of_nodup (nodup_sorted hg) hg.nodup_ids).2 fun id => ?_
  refine ⟨mem_ids_of_mem_sorted hg, fun hid => ?_⟩
  obtain ⟨i, hi, rfl⟩ := hg.exists_position hid
  exact (mem_sorted_iff hg hi).2 fun j _ => hacyclic j

/-- Each id that is placed comes after all that it must follow. -/
theorem sublist_sorted (hg : g.Coherent) {i j : Nat} (hi : i < g.size) (hmem : g.idAt i ∈ g.sorted)
    (hij : TransGen g.Edge i j) : [g.idAt j, g.idAt i].Sublist g.sorted := by
  obtain ⟨h, -⟩ := placing_sortRun hg (placing_sortStart g)
  have hplaced := (mem_placed_iff hg).2 ⟨hi, (mem_sorted_iff hg hi).1 hmem⟩
  obtain ⟨before, hbefore⟩ := exists_prefix_of_mem (Array.mem_toList_iff.2 hplaced)
  have hpair : [j, i].Sublist (before ++ [i]) :=
    (List.singleton_sublist.2 (h.legal.mem_before hbefore hij)).append (List.Sublist.refl [i])
  exact (hpair.trans hbefore.sublist).map g.idAt

end InstallerLinker.PrecedenceGraph
