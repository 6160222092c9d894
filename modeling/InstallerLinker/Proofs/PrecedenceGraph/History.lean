/-
  Installer linker — what a graph knows of its history.

  A graph is built step by step, and it may be closed and ordered between two
  steps.  What holds of it can be said from the constraints that were stated on
  the way, whatever was implied in the meantime.

  * `GraphOp` are the steps, `run` a sequence of them on the empty graph, and
    `statements` the constraints stated by it;
  * `MustFollow` is what follows from statements, without a graph;
  * `Reflects` says that a graph agrees with statements; `reflects_run` says that
    every run leads to such a graph;
  * `Reflects.transGen_iff`: what leads to what is the same in both;
  * `run_induct` is the induction over all runs, by the three changes that every
    step is made of.
-/
import Mathlib.Data.List.Induction
import InstallerLinker.Arrangement
import InstallerLinker.Proofs.PrecedenceGraph.Closure

namespace InstallerLinker
open Relation

/-! ## Runs -/

/-- A constraint as it is stated: `id` must come after `first`. -/
structure Statement where
  id : String
  first : String
  location : Location
  deriving DecidableEq

/-- What can be done to a graph. -/
inductive GraphOp where
  | addId (id : String)
  | addConstraint (id first : String) (location : Location)
  | close
  | order (log : Log CircularConstraint)
  /-- Items with these ids are arranged. -/
  | arrange (ids : List String) (log : Log CircularConstraint)

namespace GraphOp

/-- The graph after a step. -/
def apply (g : PrecedenceGraph) : GraphOp → PrecedenceGraph
  | addId id => g.addId id
  | addConstraint id first location => (g.addConstraint id first location).1
  | close => g.close
  | order log => (g.order log).2.1
  | arrange ids log => (InstallerLinker.arrange id g ids log).graph

/-- The constraint that a step states, if it does so. -/
def statement? : GraphOp → Option Statement
  | addConstraint id first location => some ⟨id, first, location⟩
  | _ => none

end GraphOp

/-- The graph after some steps. -/
def PrecedenceGraph.run (ops : List GraphOp) : PrecedenceGraph := ops.foldl GraphOp.apply ∅

/-- The constraints stated by some steps, in order. -/
def statements (ops : List GraphOp) : List Statement := ops.filterMap GraphOp.statement?

/-- By the statements, `a` must come after `b`: this is stated, or it follows from
    a chain of statements. -/
def MustFollow (ss : List Statement) : String → String → Prop :=
  TransGen fun a b => ∃ s ∈ ss, s.id = a ∧ s.first = b

/-- Where it was first stated that `a` must come after `b`. -/
def firstStated? (ss : List Statement) (a b : String) : Option Location :=
  (ss.find? fun s => s.id == a && s.first == b).map (·.location)

theorem MustFollow.append {ss : List Statement} {a b : String} (h : MustFollow ss a b)
    (more : List Statement) : MustFollow (ss ++ more) a b := by
  refine h.lift id fun _ _ ⟨s, hs, hs'⟩ => ⟨s, List.mem_append_left _ hs, hs'⟩

theorem firstStated?_append (ss : List Statement) (s : Statement) (a b : String) :
    firstStated? (ss ++ [s]) a b =
      if s.id = a ∧ s.first = b then some ((firstStated? ss a b).getD s.location)
      else firstStated? ss a b := by
  rw [firstStated?, List.find?_append, Option.map_or, ← firstStated?]
  by_cases h : s.id = a ∧ s.first = b
  · cases hs : firstStated? ss a b with
    | some l => simp [h]
    | none => simp [h]
  · have hfalse : (s.id == a && s.first == b) = false := by simpa using h
    simp [h, hfalse]

theorem firstStated?_append_of_eq_some {ss : List Statement} {a b : String} {location : Location}
    (h : firstStated? ss a b = some location) (later : List Statement) :
    firstStated? (ss ++ later) a b = some location := by
  rw [firstStated?, List.find?_append, Option.map_or, ← firstStated?, h, Option.some_or]

theorem exists_of_firstStated? {ss : List Statement} {a b : String} {location : Location}
    (h : firstStated? ss a b = some location) : ∃ s ∈ ss, s.id = a ∧ s.first = b := by
  obtain ⟨s, hs, -⟩ := Option.map_eq_some_iff.1 h
  exact ⟨s, List.mem_of_find?_eq_some hs, by simpa using List.find?_some hs⟩

theorem exists_firstStated? {ss : List Statement} {s : Statement} (hs : s ∈ ss) :
    ∃ location, firstStated? ss s.id s.first = some location := by
  rw [← Option.isSome_iff_exists, firstStated?, Option.isSome_map, List.find?_isSome]
  exact ⟨s, hs, by simp⟩

namespace PrecedenceGraph
variable {g g' : PrecedenceGraph} {ss : List Statement}

/-- To arrange items adds their ids and orders the graph. -/
theorem graph_arrange (g : PrecedenceGraph) (ids : List String) (log : Log CircularConstraint) :
    (InstallerLinker.arrange id g ids log).graph =
      ((ids.foldl PrecedenceGraph.addId g).order log).2.1 := by
  unfold InstallerLinker.arrange
  rw [List.map_id]
  split
  · next he => rw [he]
  · next he => rw [he]

/-! ## Graphs that agree with statements -/

/-- The graph holds the statements `ss`, each at the location first given, and
    otherwise only what follows from them. -/
structure Reflects (g : PrecedenceGraph) (ss : List Statement) : Prop where
  coherent : g.Coherent
  known : ∀ s ∈ ss, s.id ∈ g.ids ∧ s.first ∈ g.ids
  statedAt?_eq : ∀ {i j}, i < g.size → j < g.size →
    g.statedAt? i j = firstStated? ss (g.idAt i) (g.idAt j)
  follows : ∀ {i j}, g.Edge i j → MustFollow ss (g.idAt i) (g.idAt j)

theorem reflects_empty : (∅ : PrecedenceGraph).Reflects [] where
  coherent := coherent_empty
  known := nofun
  statedAt?_eq hi := absurd hi (Nat.not_lt_zero _)
  follows h := absurd h.lt_size (Nat.not_lt_zero _)

namespace Reflects

theorem exists_position (h : g.Reflects ss) {id : String} (hid : id ∈ g.ids) :
    ∃ i, i < g.size ∧ g.idAt i = id :=
  h.coherent.exists_position hid

theorem edge_of_statement (h : g.Reflects ss) {s : Statement} (hs : s ∈ ss) {i j : Nat}
    (hi : i < g.size) (hj : j < g.size) (hid : g.idAt i = s.id) (hfirst : g.idAt j = s.first) :
    g.Edge i j := by
  obtain ⟨location, hlocation⟩ := exists_firstStated? hs
  have hstated : g.statedAt? i j = some location := by
    rw [h.statedAt?_eq hi hj, hid, hfirst, hlocation]
  exact edge_of_statedAt? hstated

theorem exists_transGen (h : g.Reflects ss) {i : Nat} (hi : i < g.size) {b : String}
    (hb : MustFollow ss (g.idAt i) b) : ∃ j, j < g.size ∧ g.idAt j = b ∧ TransGen g.Edge i j := by
  induction hb with
  | single hstep =>
    obtain ⟨s, hs, hid, rfl⟩ := hstep
    obtain ⟨j, hj, hfirst⟩ := h.exists_position (h.known s hs).2
    exact ⟨j, hj, hfirst, .single (h.edge_of_statement hs hi hj hid.symm hfirst)⟩
  | tail _ hstep ih =>
    obtain ⟨k, hk, rfl, hik⟩ := ih
    obtain ⟨s, hs, hid, rfl⟩ := hstep
    obtain ⟨j, hj, hfirst⟩ := h.exists_position (h.known s hs).2
    exact ⟨j, hj, hfirst, hik.tail (h.edge_of_statement hs hk hj hid.symm hfirst)⟩

/-- In the graph one position leads to another exactly if the one id must follow
    the other by the statements. -/
theorem transGen_iff (h : g.Reflects ss) {i j : Nat} (hi : i < g.size) (hj : j < g.size) :
    TransGen g.Edge i j ↔ MustFollow ss (g.idAt i) (g.idAt j) := by
  constructor
  · exact fun hij => hij.lift' g.idAt fun _ _ => h.follows
  · intro hij
    obtain ⟨k, hk, hid, hik⟩ := h.exists_transGen hi hij
    rwa [h.coherent.idAt_inj hk hj hid] at hik

theorem mem_ids_of_mustFollow (h : g.Reflects ss) {a b : String} (hab : MustFollow ss a b) :
    a ∈ g.ids ∧ b ∈ g.ids := by
  obtain ⟨_, ⟨s, hs, rfl, -⟩, -⟩ := TransGen.head'_iff.1 hab
  obtain ⟨_, -, ⟨s', hs', -, rfl⟩⟩ := TransGen.tail'_iff.1 hab
  exact ⟨(h.known s hs).1, (h.known s' hs').2⟩

/-- A graph has a cycle exactly if some id must follow itself. -/
theorem exists_cycle_iff (h : g.Reflects ss) :
    (∃ i, TransGen g.Edge i i) ↔ ∃ id, MustFollow ss id id := by
  constructor
  · rintro ⟨i, hi⟩
    exact ⟨_, (h.transGen_iff (lt_size_of_transGen hi) (lt_size_of_transGen hi)).1 hi⟩
  · rintro ⟨id, hid⟩
    obtain ⟨i, hi, rfl⟩ := h.exists_position (h.mem_ids_of_mustFollow hid).1
    exact ⟨i, (h.transGen_iff hi hi).2 hid⟩

theorem acyclic (h : g.Reflects ss) (hacyclic : ∀ id, ¬ MustFollow ss id id) (i : Nat) :
    ¬ TransGen g.Edge i i := by
  intro hi
  obtain ⟨id, hid⟩ := h.exists_cycle_iff.1 ⟨i, hi⟩
  exact hacyclic id hid

/-! ## The steps -/

theorem of_extends (h : g.Reflects ss) (hg' : g'.Coherent) (he : Extends g g') : g'.Reflects ss where
  coherent := hg'
  known s hs := by
    rw [he.ids]
    exact h.known s hs
  statedAt?_eq {i j} hi hj := by
    rw [he.statedAt?, he.idAt, he.idAt]
    exact h.statedAt?_eq (he.size ▸ hi) (he.size ▸ hj)
  follows {i j} hij := by
    have hold := he.follows hij
    rw [he.idAt, he.idAt]
    exact (h.transGen_iff (lt_size_of_transGen hold) (h.coherent.target_lt_of_transGen hold)).1 hold

theorem place (h : g.Reflects ss) (id : String) : (g.place id).1.Reflects ss := by
  have hg := h.coherent
  have hconstraint : ∀ i j, (g.place id).1.constraint? i j = g.constraint? i j := fun i j => by
    rw [constraint?, constraintsAt_place hg, ← constraint?]
  have hedge : ∀ i j, (g.place id).1.Edge i j ↔ g.Edge i j := fun i j => by
    rw [Edge, targetsAt, constraintsAt_place hg, ← targetsAt, ← Edge]
  have hold : ∀ {i}, i < (g.place id).1.size → (g.place id).1.idAt i ∈ g.ids → i < g.size := by
    intro i hi hid
    obtain ⟨k, hk, hidAt⟩ := h.exists_position hid
    rw [← idAt_place hg id hk] at hidAt
    rwa [← (hg.place id).idAt_inj (Nat.lt_of_lt_of_le hk (size_le_size_place hg id)) hi hidAt]
  have hids : ∀ {id'}, id' ∈ g.ids → id' ∈ (g.place id).1.ids := by
    intro id' hid'
    obtain ⟨k, hk, rfl⟩ := h.exists_position hid'
    rw [(hg.place id).mem_ids_iff]
    exact ⟨k, ((hg.place id).position?_iff _ _).2
      ⟨Nat.lt_of_lt_of_le hk (size_le_size_place hg id), idAt_place hg id hk⟩⟩
  refine ⟨hg.place id, ?_, ?_, ?_⟩
  · intro s hs
    exact ⟨hids (h.known s hs).1, hids (h.known s hs).2⟩
  · intro i j hi hj
    rw [statedAt?, hconstraint, ← statedAt?]
    by_cases hij : i < g.size ∧ j < g.size
    · rw [idAt_place hg id hij.1, idAt_place hg id hij.2]
      exact h.statedAt?_eq hij.1 hij.2
    · -- one of the two is new: neither the graph nor the statements know it
      have hgraph : g.statedAt? i j = none := by
        refine Option.eq_none_iff_forall_ne_some.2 fun location hs => hij ?_
        have hedge := edge_of_statedAt? hs
        exact ⟨hedge.lt_size, hg.target_lt hedge⟩
      have hstatements : firstStated? ss ((g.place id).1.idAt i) ((g.place id).1.idAt j) = none := by
        refine Option.eq_none_iff_forall_ne_some.2 fun location hs => hij ?_
        obtain ⟨s, hs, hid, hfirst⟩ := exists_of_firstStated? hs
        exact ⟨hold hi (hid ▸ (h.known s hs).1), hold hj (hfirst ▸ (h.known s hs).2)⟩
      rw [hgraph, hstatements]
  · intro i j hij
    rw [hedge] at hij
    rw [idAt_place hg id hij.lt_size, idAt_place hg id (hg.target_lt hij)]
    exact h.follows hij

theorem stateAt (h : g.Reflects ss) {i j : Nat} (hi : i < g.size) (hj : j < g.size)
    (location : Location) :
    (g.stateAt i j location).1.Reflects (ss ++ [⟨g.idAt i, g.idAt j, location⟩]) := by
  obtain ⟨hsize, hidAt, -⟩ := stateAt_same (g := g) i j location
  refine ⟨h.coherent.stateAt hi hj location, ?_, ?_, ?_⟩
  · intro s hs
    rw [ids_eq_of_idAt_eq hsize hidAt]
    rcases List.mem_append.1 hs with hs | hs
    · exact h.known s hs
    · rw [List.mem_singleton.1 hs]
      exact ⟨idAt_mem_ids hi, idAt_mem_ids hj⟩
  · intro k m hk hm
    rw [hsize] at hk hm
    have hpair : (i = k ∧ j = m) ↔ (g.idAt i = g.idAt k ∧ g.idAt j = g.idAt m) :=
      and_congr ⟨fun h => h ▸ rfl, h.coherent.idAt_inj hi hk⟩
        ⟨fun h => h ▸ rfl, h.coherent.idAt_inj hj hm⟩
    rw [statedAt?_stateAt hi, firstStated?_append, hidAt, hidAt, h.statedAt?_eq hk hm,
      h.statedAt?_eq hi hj]
    by_cases hkm : i = k ∧ j = m
    · rw [if_pos hkm, if_pos (hpair.1 hkm), hkm.1, hkm.2]
    · rw [if_neg hkm, if_neg (fun hkm' => hkm (hpair.2 hkm'))]
  · intro k m hkm
    rw [hidAt, hidAt]
    rw [Edge, targetsAt_stateAt hi] at hkm
    split at hkm
    · next hik =>
      rcases List.mem_append.1 hkm with hkm | hkm
      · exact (h.follows hkm).append _
      · rw [← hik.1, List.mem_singleton.1 hkm]
        exact .single ⟨_, List.mem_append_right _ (List.mem_singleton_self _), rfl, rfl⟩
    · exact (h.follows hkm).append _

theorem addConstraint (h : g.Reflects ss) (id first : String) (location : Location) :
    (g.addConstraint id first location).1.Reflects (ss ++ [⟨id, first, location⟩]) := by
  have hg := (h.place id).coherent
  have hi := placed_lt_size h.coherent id
  have := ((h.place id).place first).stateAt
    (Nat.lt_of_lt_of_le hi (size_le_size_place hg first)) (placed_lt_size hg first) location
  rwa [← addConstraint_eq, idAt_placed hg, idAt_place hg first hi, idAt_placed h.coherent] at this

theorem close (h : g.Reflects ss) : g.close.Reflects ss :=
  h.of_extends h.coherent.close.1 h.coherent.close.2

theorem order (h : g.Reflects ss) (log : Log CircularConstraint) :
    (g.order log).2.1.Reflects ss := by
  unfold PrecedenceGraph.order
  split
  · exact h.close
  · exact h

theorem foldl_addId (h : g.Reflects ss) (ids : List String) :
    (ids.foldl PrecedenceGraph.addId g).Reflects ss := by
  induction ids generalizing g with
  | nil => exact h
  | cons id ids ih => exact ih (h.place id)

theorem arrange (h : g.Reflects ss) (ids : List String) (log : Log CircularConstraint) :
    (InstallerLinker.arrange id g ids log).graph.Reflects ss := by
  rw [graph_arrange]
  exact (h.foldl_addId ids).order log

theorem apply (h : g.Reflects ss) (op : GraphOp) :
    (op.apply g).Reflects (ss ++ op.statement?.toList) := by
  cases op with
  | addConstraint id first location => exact h.addConstraint id first location
  | addId id =>
    show (g.addId id).Reflects (ss ++ [])
    rw [List.append_nil]
    exact h.place id
  | close =>
    show g.close.Reflects (ss ++ [])
    rw [List.append_nil]
    exact h.close
  | order log =>
    show (g.order log).2.1.Reflects (ss ++ [])
    rw [List.append_nil]
    exact h.order log
  | arrange ids log =>
    show (InstallerLinker.arrange id g ids log).graph.Reflects (ss ++ [])
    rw [List.append_nil]
    exact h.arrange ids log

end Reflects

/-- A graph reflects what was stated while it was built. -/
theorem reflects_run (ops : List GraphOp) : (run ops).Reflects (statements ops) := by
  suffices h : ∀ (g : PrecedenceGraph) (ss : List Statement), g.Reflects ss →
      (ops.foldl GraphOp.apply g).Reflects (ss ++ statements ops) from h ∅ [] reflects_empty
  induction ops with
  | nil => intro g ss h; simpa [statements] using h
  | cons op ops ih =>
    intro g ss h
    have hstatements : statements (op :: ops) = op.statement?.toList ++ statements ops := by
      rw [statements, List.filterMap_cons]
      cases op.statement? <;> rfl
    rw [List.foldl_cons, hstatements, ← List.append_assoc]
    exact ih _ _ (h.apply op)

/-! ## What all runs keep -/

section
variable {P : PrecedenceGraph → Prop}
  (place : ∀ {g}, g.Coherent → P g → ∀ id, P (g.place id).1)
  (stateAt : ∀ {g}, g.Coherent → P g → ∀ {i j}, i < g.size → j < g.size → ∀ location,
    P (g.stateAt i j location).1)
  (closeAt : ∀ {g}, g.Coherent → P g → ∀ {i}, i < g.size → P (g.closeAt i))

include place in
/-- What is kept when one id is placed is kept when many are. -/
theorem foldl_addId_induct (hg : g.Coherent) (h : P g) (ids : List String) :
    (ids.foldl PrecedenceGraph.addId g).Coherent ∧ P (ids.foldl PrecedenceGraph.addId g) := by
  induction ids generalizing g with
  | nil => exact ⟨hg, h⟩
  | cons id ids ih => exact ih (hg.place id) (place hg h id)

include closeAt

/-- What is kept when one position is closed is kept when all are. -/
theorem close_induct (hg : g.Coherent) (h : P g) : P g.close := by
  have hsteps := close_steps (P := fun _ g' => P g') hg h fun hn hcoherent hextends hP =>
    closeAt hcoherent hP (hextends.size ▸ hn)
  exact hsteps.2.2

theorem order_induct (hg : g.Coherent) (h : P g) (log : Log CircularConstraint) :
    P (g.order log).2.1 := by
  unfold PrecedenceGraph.order
  split
  · exact close_induct closeAt hg h
  · exact h

include place

theorem arrange_induct (hg : g.Coherent) (h : P g) (ids : List String)
    (log : Log CircularConstraint) : P (InstallerLinker.arrange id g ids log).graph := by
  obtain ⟨hcoherent, hids⟩ := foldl_addId_induct place hg h ids
  rw [graph_arrange]
  exact order_induct closeAt hcoherent hids log

include stateAt

theorem apply_induct (hg : g.Coherent) (h : P g) (op : GraphOp) : P (op.apply g) := by
  cases op with
  | addId id => exact place hg h id
  | addConstraint id first location =>
    have hid := placed_lt_size hg id
    have hfirst := hg.place id
    exact stateAt (hfirst.place first) (place hfirst (place hg h id) first)
      (Nat.lt_of_lt_of_le hid (size_le_size_place hfirst first)) (placed_lt_size hfirst first) location
  | close => exact close_induct closeAt hg h
  | order log => exact order_induct closeAt hg h log
  | arrange ids log => exact arrange_induct place closeAt hg h ids log

/-- To show something of all graphs that can be built, show that it holds of the
    empty one and is kept when an id is placed, a constraint stated, or one
    position closed. -/
theorem run_induct (empty : P ∅) (ops : List GraphOp) : P (run ops) := by
  induction ops using List.reverseRecOn with
  | nil => exact empty
  | append_singleton ops op ih =>
    rw [run, List.foldl_append, List.foldl_cons, List.foldl_nil]
    exact apply_induct place stateAt closeAt (reflects_run ops).coherent ih op

end

end PrecedenceGraph

end InstallerLinker
