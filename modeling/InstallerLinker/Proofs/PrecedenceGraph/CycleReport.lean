/-
  Installer linker — what is reported on the cycles of a graph.

  A search is made from each id, so a cycle is found once for each id on it, each
  time turned differently.  It is recognised by the turn that begins with its
  smallest position, which no other cycle has.

  * `Follows` and `IsIdCycle` say in ids what `Edge` and `IsCycle` say in
    positions;
  * `TellsCycles` says what a list of reports has to do with the cycles of a
    graph, and `TellsCycles.countP_eq_one` what follows where cycles do not meet,
    as in a graph where each id must come after one other at most
    (`cyclesDisjoint_of_length_after_le_one`);
  * `tellsCycles_run` says it of the reports on any graph.
-/
import InstallerLinker.Proofs.PrecedenceGraph.History
import InstallerLinker.Proofs.PrecedenceGraph.Rotation

namespace InstallerLinker

namespace PrecedenceGraph
open Relation

variable {g : PrecedenceGraph}

/-! ## Constraints between ids -/

/-- By one constraint of the graph, stated or implied, `a` must come after `b`. -/
def Follows (g : PrecedenceGraph) (a b : String) : Prop := b ∈ g.after a

theorem follows_iff (hg : g.Coherent) {a b : String} :
    g.Follows a b ↔ ∃ i j, g.Edge i j ∧ g.idAt i = a ∧ g.idAt j = b := by
  unfold Follows after
  cases ha : g.position? a with
  | none =>
    refine ⟨nofun, fun ⟨i, j, hij, hi, _⟩ => ?_⟩
    rw [← hi, hg.position?_idAt hij.lt_size] at ha
    cases ha
  | some i =>
    rw [List.mem_map]
    constructor
    · rintro ⟨j, hj, hb⟩
      exact ⟨i, j, hj, ((hg.position?_iff _ _).1 ha).2, hb⟩
    · rintro ⟨k, j, hkj, hk, hb⟩
      rw [← hk, hg.position?_idAt hkj.lt_size, Option.some.injEq] at ha
      exact ⟨j, ha ▸ hkj, hb⟩

theorem exists_transGen_edge (hg : g.Coherent) {a b : String} (h : TransGen g.Follows a b) :
    ∃ i j, TransGen g.Edge i j ∧ g.idAt i = a ∧ g.idAt j = b := by
  induction h with
  | single hstep =>
    obtain ⟨i, j, hij, hi, hj⟩ := (follows_iff hg).1 hstep
    exact ⟨i, j, .single hij, hi, hj⟩
  | tail _ hstep ih =>
    obtain ⟨i, j, hij, hi, hj⟩ := ih
    obtain ⟨k, m, hkm, hk, hm⟩ := (follows_iff hg).1 hstep
    obtain rfl : j = k :=
      hg.idAt_inj (hg.target_lt_of_transGen hij) hkm.lt_size (hj.trans hk.symm)
    exact ⟨i, m, hij.tail hkm, hi, hm⟩

/-- Ids lead to each other if their positions do. -/
theorem transGen_follows_iff_exists (hg : g.Coherent) {a b : String} :
    TransGen g.Follows a b ↔ ∃ i j, TransGen g.Edge i j ∧ g.idAt i = a ∧ g.idAt j = b := by
  refine ⟨exists_transGen_edge hg, ?_⟩
  rintro ⟨i, j, hij, rfl, rfl⟩
  exact hij.lift g.idAt fun k m hkm => (follows_iff hg).2 ⟨k, m, hkm, rfl, rfl⟩

/-- Constraints between ids lead where those between their positions do. -/
theorem transGen_follows_iff (hg : g.Coherent) {i j : Nat} (hi : i < g.size) (hj : j < g.size) :
    TransGen g.Follows (g.idAt i) (g.idAt j) ↔ TransGen g.Edge i j := by
  constructor
  · intro h
    obtain ⟨k, m, hkm, hk, hm⟩ := exists_transGen_edge hg h
    have hksize := lt_size_of_transGen hkm
    have hmsize := hg.target_lt_of_transGen hkm
    rwa [hg.idAt_inj hksize hi hk, hg.idAt_inj hmsize hj hm] at hkm
  · exact fun h => (transGen_follows_iff_exists hg).2 ⟨i, j, h, rfl, rfl⟩

theorem mem_ids_of_transGen_follows (hg : g.Coherent) {a b : String} (h : TransGen g.Follows a b) :
    a ∈ g.ids ∧ b ∈ g.ids := by
  obtain ⟨i, j, hij, rfl, rfl⟩ := exists_transGen_edge hg h
  exact ⟨idAt_mem_ids (lt_size_of_transGen hij), idAt_mem_ids (hg.target_lt_of_transGen hij)⟩

/-- An id must follow itself exactly if its position leads back to itself. -/
theorem transGen_follows_self_iff (hg : g.Coherent) {id : String} :
    TransGen g.Follows id id ↔ ∃ i, TransGen g.Edge i i ∧ g.idAt i = id := by
  constructor
  · intro h
    obtain ⟨i, hi, rfl⟩ := hg.exists_position (mem_ids_of_transGen_follows hg h).1
    exact ⟨i, (transGen_follows_iff hg hi hi).1 h, rfl⟩
  · rintro ⟨i, hi, hid⟩
    exact (transGen_follows_iff_exists hg).2 ⟨i, i, hi, hid, hid⟩

/-! ## Cycles of ids -/

/-- A list of distinct ids, each of which must come after the next and the last
    one after the first, which is `first`. -/
structure IsIdCycle (g : PrecedenceGraph) (first : String) (ids : List String) : Prop where
  head : ids.head? = some first
  nodup : ids.Nodup
  chain : (ids ++ [first]).IsChain g.Follows

theorem IsIdCycle.transGen {first : String} {ids : List String} (h : g.IsIdCycle first ids) :
    TransGen g.Follows first first := by
  obtain ⟨rest, rfl⟩ := List.head?_eq_some_iff.1 h.head
  exact transGen_of_isChain h.chain

/-- Each position on a cycle leads back to itself. -/
theorem IsCycle.transGen_of_mem {start i : Nat} {cycle : List Nat} (h : g.IsCycle start cycle)
    (hi : i ∈ cycle) : TransGen g.Edge i i := by
  obtain ⟨rest, rfl⟩ := List.head?_eq_some_iff.1 h.head
  rcases List.mem_cons.1 hi with rfl | hi
  · exact h.transGen
  · obtain ⟨s, t, rfl⟩ := List.append_of_mem hi
    have hto : (start :: (s ++ [i])).IsChain g.Edge := h.chain.infix ⟨[], t ++ [start], by simp⟩
    have hback : (i :: (t ++ [start])).IsChain g.Edge := h.chain.infix ⟨start :: s, [], by simp⟩
    exact (transGen_of_isChain hback).trans (transGen_of_isChain hto)

theorem IsCycle.lt_size {start i : Nat} {cycle : List Nat} (h : g.IsCycle start cycle)
    (hi : i ∈ cycle) : i < g.size :=
  lt_size_of_transGen (h.transGen_of_mem hi)

theorem IsCycle.map_idAt (hg : g.Coherent) {start : Nat} {cycle : List Nat}
    (h : g.IsCycle start cycle) : g.IsIdCycle (g.idAt start) (cycle.map g.idAt) where
  head := by rw [List.head?_map, h.head, Option.map_some]
  nodup := (List.nodup_map_iff_inj_on h.nodup).2 fun _ hi _ hj hij =>
    hg.idAt_inj (h.lt_size hi) (h.lt_size hj) hij
  chain := by
    rw [← List.map_singleton, ← List.map_append, List.isChain_map]
    exact h.chain.imp fun i j hij => (follows_iff hg).2 ⟨i, j, hij, rfl, rfl⟩

/-- Cycles of positions are turns of each other exactly if their ids are. -/
theorem IsCycle.map_idAt_isRotated_iff (hg : g.Coherent) {start start' : Nat}
    {cycle cycle' : List Nat} (h : g.IsCycle start cycle) (h' : g.IsCycle start' cycle') :
    cycle.map g.idAt ~r cycle'.map g.idAt ↔ cycle ~r cycle' := by
  have hback : ∀ {start cycle}, g.IsCycle start cycle →
      (cycle.map g.idAt).map (fun id => (g.position? id).getD 0) = cycle := by
    intro start cycle h
    rw [List.map_map, List.map_congr_left (g := id), List.map_id]
    intro i hi
    rw [Function.comp_apply, hg.position?_idAt (h.lt_size hi), Option.getD_some, id_eq]
  constructor
  · intro hrot
    have := hrot.map fun id => (g.position? id).getD 0
    rwa [hback h, hback h'] at this
  · exact fun hrot => hrot.map g.idAt

/-! ## The reports -/

/-- Each report goes round a cycle of the graph; the ids that must follow
    themselves are those that appear in the reports; and no two reports go round
    the same cycle. -/
structure TellsCycles (g : PrecedenceGraph) (reports : List CircularConstraint) : Prop where
  sound : ∀ c ∈ reports, ∃ first ids, c.chain = ids ++ [first] ∧ g.IsIdCycle first ids
  covers : ∀ id, TransGen g.Follows id id ↔ ∃ c ∈ reports, id ∈ c.chain
  once : reports.Pairwise fun c c' => ¬ c.chain.dropLast ~r c'.chain.dropLast

/-- No two cycles of the graph have an id in common, unless they are one cycle. -/
def CyclesDisjoint (g : PrecedenceGraph) : Prop :=
  ∀ first ids first' ids', g.IsIdCycle first ids → g.IsIdCycle first' ids' →
    ids ~r ids' ∨ ids.Disjoint ids'

/-- The same cycle, from any of its ids on. -/
theorem IsIdCycle.exists_turn {first id : String} {ids : List String} (h : g.IsIdCycle first ids)
    (hid : id ∈ ids) : ∃ turned, turned ~r ids ∧ g.IsIdCycle id turned := by
  obtain ⟨s, t, rfl⟩ := List.append_of_mem hid
  have hrot : id :: t ++ s ~r s ++ id :: t := List.isRotated_append
  refine ⟨_, hrot, rfl, hrot.nodup_iff.2 h.nodup, ?_⟩
  cases s with
  | nil =>
    obtain rfl : id = first := by simpa using h.head
    simpa using h.chain
  | cons _ s =>
    obtain rfl := (Option.some.inj h.head).symm
    -- the way from `id` back to `first` and the way from there to `id` overlap in `first`
    have hto : ([first] ++ (s ++ [id])).IsChain g.Follows :=
      h.chain.infix ⟨[], t ++ [first], by simp⟩
    have hback : (id :: t ++ [first]).IsChain g.Follows := h.chain.infix ⟨first :: s, [], by simp⟩
    simpa using hback.append_overlap hto (List.cons_ne_nil _ _)

/-- Where each step has one outcome at most, two ways from `a` that come to `last` only at
    their end are the same. -/
theorem eq_of_isChain_of_unique {α : Type*} {R : α → α → Prop}
    (hunique : ∀ a b c, R a b → R a c → b = c) {a last : α} {l l' : List α}
    (h : (a :: (l ++ [last])).IsChain R) (h' : (a :: (l' ++ [last])).IsChain R)
    (hlast : last ∉ l) (hlast' : last ∉ l') : l = l' := by
  induction l generalizing a l' with
  | nil =>
    cases l' with
    | nil => rfl
    | cons b l' =>
      have hb := hunique a _ _ (List.isChain_cons_cons.1 h).1 (List.isChain_cons_cons.1 h').1
      exact absurd (hb ▸ List.mem_cons_self ..) hlast'
  | cons b l ih =>
    obtain ⟨hab, htail⟩ := List.isChain_cons_cons.1 h
    cases l' with
    | nil =>
      have hb := hunique a _ _ (List.isChain_cons_cons.1 h').1 hab
      exact absurd (hb ▸ List.mem_cons_self ..) hlast
    | cons b' l' =>
      obtain ⟨hab', htail'⟩ := List.isChain_cons_cons.1 h'
      obtain rfl := hunique a _ _ hab hab'
      rw [ih htail htail' (fun hmem => hlast (List.mem_cons_of_mem _ hmem))
        fun hmem => hlast' (List.mem_cons_of_mem _ hmem)]

/-- Where each id must come after one other at most, cycles do not meet. -/
theorem cyclesDisjoint_of_length_after_le_one (hg : g.Coherent)
    (hone : ∀ id ∈ g.ids, (g.after id).length ≤ 1) : g.CyclesDisjoint := by
  have hunique : ∀ a b c, g.Follows a b → g.Follows a c → b = c := by
    intro a b c hb hc
    have hlength := hone a (mem_ids_of_transGen_follows hg (.single hb)).1
    unfold Follows at hb hc
    obtain ⟨d, hd⟩ := List.length_eq_one_iff.1
      (Nat.le_antisymm hlength (List.length_pos_of_mem hb))
    rw [hd, List.mem_singleton] at hb hc
    rw [hb, hc]
  intro first ids first' ids' h h'
  by_cases hdisjoint : ids.Disjoint ids'
  · exact Or.inr hdisjoint
  · -- turned so that they begin with an id that they share, the two are equal
    obtain ⟨id, hid, hid'⟩ : ∃ id, id ∈ ids ∧ id ∈ ids' := by
      simpa [List.Disjoint] using hdisjoint
    obtain ⟨turned, hrot, hturned⟩ := h.exists_turn hid
    obtain ⟨turned', hrot', hturned'⟩ := h'.exists_turn hid'
    obtain ⟨t, rfl⟩ := List.head?_eq_some_iff.1 hturned.head
    obtain ⟨t', rfl⟩ := List.head?_eq_some_iff.1 hturned'.head
    have ht : t = t' := eq_of_isChain_of_unique hunique hturned.chain hturned'.chain
      (List.nodup_cons.1 hturned.nodup).1 (List.nodup_cons.1 hturned'.nodup).1
    exact Or.inl (hrot.symm.trans (ht ▸ hrot'))

theorem chain_circularConstraint (start : Nat) (cycle : List Nat) :
    (g.circularConstraint start cycle).chain = cycle.map g.idAt ++ [g.idAt start] :=
  List.map_append

theorem IsCycle.mem_chain_iff {start : Nat} {cycle : List Nat} (h : g.IsCycle start cycle)
    {id : String} :
    id ∈ (g.circularConstraint start cycle).chain ↔ ∃ i ∈ cycle, g.idAt i = id := by
  rw [chain_circularConstraint, List.mem_append, List.mem_map, List.mem_singleton]
  constructor
  · rintro (hid | rfl)
    · exact hid
    · exact ⟨start, List.mem_of_mem_head? h.head, rfl⟩
  · exact Or.inl

section
variable {log : Log CircularConstraint} {cycles : List (Nat × List Nat)}
  {p : List (List Nat) × Log CircularConstraint} (hg : g.Coherent)
  (h : CyclesReported g log g.size cycles p)
include hg h

/-- A position that leads back to itself is on a cycle that has been reported. -/
theorem CyclesReported.exists_mem_cycle {i : Nat} (hi : TransGen g.Edge i i) :
    ∃ c ∈ cycles, i ∈ c.2 := by
  obtain ⟨cycle, hcycle⟩ := Option.isSome_iff_exists.1 ((isSome_findCycle_iff hg i).2 hi)
  have hmem := h.covered i cycle (lt_size_of_transGen hi) hcycle
  rw [← List.mem_reverse, h.rotations, List.mem_map] at hmem
  obtain ⟨c, hc, hrotation⟩ := hmem
  refine ⟨c, hc, ?_⟩
  rw [← (canonicalRotation_isRotated c.2).mem_iff, hrotation,
    (canonicalRotation_isRotated cycle).mem_iff]
  exact List.mem_of_mem_head? (isCycle_of_findCycle hg hcycle).head

theorem CyclesReported.tellsCycles :
    g.TellsCycles (cycles.map fun c => g.circularConstraint c.1 c.2) := by
  have hcycle : ∀ c ∈ cycles, g.IsCycle c.1 c.2 := fun c hc =>
    isCycle_of_findCycle hg (h.found c hc).2
  refine ⟨?_, ?_, ?_⟩
  · intro r hr
    obtain ⟨c, hc, rfl⟩ := List.mem_map.1 hr
    exact ⟨_, _, chain_circularConstraint c.1 c.2, (hcycle c hc).map_idAt hg⟩
  · intro id
    rw [transGen_follows_self_iff hg]
    constructor
    · rintro ⟨i, hi, hid⟩
      obtain ⟨c, hc, hmem⟩ := h.exists_mem_cycle hg hi
      exact ⟨_, List.mem_map_of_mem hc, (hcycle c hc).mem_chain_iff.2 ⟨i, hmem, hid⟩⟩
    · rintro ⟨r, hr, hid⟩
      obtain ⟨c, hc, rfl⟩ := List.mem_map.1 hr
      obtain ⟨i, hmem, hid⟩ := (hcycle c hc).mem_chain_iff.1 hid
      exact ⟨i, (hcycle c hc).transGen_of_mem hmem, hid⟩
  · have hnodup := List.nodup_reverse.2 h.nodup
    rw [h.rotations] at hnodup
    rw [List.pairwise_map]
    refine (List.pairwise_map.1 hnodup).imp_of_mem fun {c c'} hc hc' hne hrot => hne ?_
    rw [chain_circularConstraint, chain_circularConstraint, List.dropLast_concat,
      List.dropLast_concat, (hcycle c hc).map_idAt_isRotated_iff hg (hcycle c' hc')] at hrot
    exact (canonicalRotation_eq_iff (hcycle c hc).nodup).2 hrot

end

/-- Where cycles do not meet, each of them has one report. -/
theorem TellsCycles.countP_eq_one {reports : List CircularConstraint} (h : g.TellsCycles reports)
    (hdisjoint : g.CyclesDisjoint) {first : String} {ids : List String}
    (hids : g.IsIdCycle first ids) :
    reports.countP (fun c => ids ~r c.chain.dropLast) = 1 := by
  obtain ⟨c, hc, hfirst⟩ := (h.covers first).1 hids.transGen
  obtain ⟨first', ids', hchain, hids'⟩ := h.sound c hc
  have hmem : first ∈ ids' := by
    rw [hchain] at hfirst
    rcases List.mem_append.1 hfirst with hfirst | hfirst
    · exact hfirst
    · exact List.mem_of_mem_head? (List.mem_singleton.1 hfirst ▸ hids'.head)
  have hrot : ids ~r c.chain.dropLast := by
    rw [hchain, List.dropLast_concat]
    refine (hdisjoint first ids first' ids' hids hids').resolve_right fun hno => ?_
    exact hno (List.mem_of_mem_head? hids.head) hmem
  obtain ⟨s, t, rfl⟩ := List.append_of_mem hc
  obtain ⟨-, ht, hst⟩ := List.pairwise_append.1 h.once
  have hbefore : s.countP (fun c => ids ~r c.chain.dropLast) = 0 :=
    List.countP_eq_zero.2 fun c' hc' hrot' =>
      hst c' hc' c (List.mem_cons_self ..) ((of_decide_eq_true hrot').symm.trans hrot)
  have hafter : t.countP (fun c => ids ~r c.chain.dropLast) = 0 :=
    List.countP_eq_zero.2 fun c' hc' hrot' =>
      (List.pairwise_cons.1 ht).1 c' hc' (hrot.symm.trans (of_decide_eq_true hrot'))
  rw [List.countP_append, hbefore, List.countP_cons, hafter, if_pos (decide_eq_true hrot)]

/-- **The reports on cycles.**  However a graph was built, what is reported goes
    round its cycles: each chain is a cycle, each id that must follow itself
    appears and no other does, and no cycle is reported twice; the number counts
    the reports.  Where no two cycles meet, each has exactly one report. -/
theorem tellsCycles_run (ops : List GraphOp) (log : Log CircularConstraint) :
    ∃ reports, ((run ops).reportCycles log).2.toList = log.toList ++ reports ∧
      ((run ops).reportCycles log).1 = reports.length ∧ (run ops).TellsCycles reports ∧
        ((run ops).CyclesDisjoint → ∀ first ids, (run ops).IsIdCycle first ids →
          reports.countP (fun c => ids ~r c.chain.dropLast) = 1) := by
  obtain ⟨cycles, h⟩ := exists_cyclesReported (run ops) log (run ops).size
  have htells := h.tellsCycles (reflects_run ops).coherent
  refine ⟨_, h.log, ?_, htells, fun hdisjoint first ids => htells.countP_eq_one hdisjoint⟩
  have hlength := congrArg List.length h.rotations
  rw [List.length_reverse, List.length_map] at hlength
  rw [List.length_map, ← hlength]
  rfl

/-- Three ids in a circle, two that come after each other, and one that leads into the
    circle. -/
def triangleAndPair : List GraphOp :=
  [.addConstraint "a" "b" .unknown, .addConstraint "b" "c" .unknown,
    .addConstraint "c" "a" .unknown, .addConstraint "d" "e" .unknown,
    .addConstraint "e" "d" .unknown, .addConstraint "f" "a" .unknown]

/-- The circle is found three times, each time turned differently, and reported once. -/
theorem tellsCycles_triangleAndPair :
    (List.range 6).map (run triangleAndPair).findCycle =
        [some [0, 1, 2], some [1, 2, 0], some [2, 0, 1], some [3, 4], some [4, 3], none] ∧
      (run triangleAndPair).CyclesDisjoint ∧ (run triangleAndPair).IsIdCycle "b" ["b", "c", "a"] ∧
      ∃ reports, ((run triangleAndPair).reportCycles ∅).2.toList = reports ∧
        reports.map (·.chain) = [["a", "b", "c", "a"], ["d", "e", "d"]] ∧
        reports.countP (fun c => ["b", "c", "a"] ~r c.chain.dropLast) = 1 := by
  have hg := (reflects_run triangleAndPair).coherent
  have hdisjoint : (run triangleAndPair).CyclesDisjoint :=
    cyclesDisjoint_of_length_after_le_one hg (by decide +kernel)
  have hchain : (["b", "c", "a"] ++ ["b"]).IsChain fun a b => b ∈ (run triangleAndPair).after a := by
    decide +kernel
  have hcircle : (run triangleAndPair).IsIdCycle "b" ["b", "c", "a"] := ⟨rfl, by decide, hchain⟩
  obtain ⟨reports, hlog, -, -, hone⟩ := tellsCycles_run triangleAndPair ∅
  refine ⟨by decide +kernel, hdisjoint, hcircle, reports, hlog, ?_, hone hdisjoint _ _ hcircle⟩
  rw [← show _ = reports from hlog]
  decide +kernel

end PrecedenceGraph

end InstallerLinker
