/-
  Installer linker — where the parts of a graph come from.

  Ids are mentioned, constraints are stated and implied, and what was implied may be
  stated later, in any order.  All the same, each part of a graph goes back to one
  step: an id to the first that mentions it, a constraint to the first that states it,
  and an implied one to those that it follows from.

  * `mentionedIds` are the ids that some steps mention, and `ids_run` says that a graph
    lists them in the order in which they first come up;
  * `idConstraints` are all constraints of a graph, told by their ids, and
    `mem_idConstraints_iff` finds them among the edges;
  * `Traces` says what the parts of a graph have to do with the steps, and
    `traces_run` that this holds of every graph that can be built.
-/
import InstallerLinker.Proofs.PrecedenceGraph.CycleReport
import InstallerLinker.Proofs.PrecedenceGraph.Determinacy

namespace InstallerLinker
open Relation

/-- The ids that a step mentions, in order. -/
def GraphOp.mentions : GraphOp → List String
  | addId id => [id]
  | addConstraint id first _ => [id, first]
  | close => []
  | order _ => []
  | arrange ids _ => ids

/-- The ids that some steps mention, in order. -/
def mentionedIds (ops : List GraphOp) : List String := ops.flatMap GraphOp.mentions

/-- A constraint with the ids that it is about: `id` must come after `first`.  It has a
    location if it was stated. -/
structure IdConstraint where
  id : String
  first : String
  location : Option Location
  deriving DecidableEq

theorem eraseDups_append_singleton (l : List String) (a : String) :
    (l ++ [a]).eraseDups = if a ∈ l then l.eraseDups else l.eraseDups ++ [a] := by
  rw [List.eraseDups_append]
  by_cases ha : a ∈ l
  · simp [List.removeAll, ha]
  · simp [List.removeAll, ha, List.eraseDups_cons]

namespace PrecedenceGraph
variable {g : PrecedenceGraph} {ss : List Statement}

/-! ## Ids in the order of their mention -/

section
variable {l : List String}

theorem ids_place_eq (hg : g.Coherent) (h : g.ids = l.eraseDups) (id : String) :
    (g.place id).1.ids = (l ++ [id]).eraseDups := by
  have hmem : g.contains id = true ↔ id ∈ l := by
    rw [← List.mem_eraseDups, ← h, hg.mem_ids_iff]
    exact Option.isSome_iff_exists
  show (g.addId id).ids = _
  rw [g.ids_addId, eraseDups_append_singleton, h]
  simp only [hmem]

theorem ids_addConstraint_eq (hg : g.Coherent) (h : g.ids = l.eraseDups) (id first : String)
    (location : Location) :
    (g.addConstraint id first location).1.ids = (l ++ [id, first]).eraseDups := by
  obtain ⟨hsize, hidAt, -⟩ := stateAt_same (g := ((g.place id).1.place first).1) (g.place id).2
    ((g.place id).1.place first).2 location
  rw [addConstraint_eq, ids_eq_of_idAt_eq hsize hidAt, List.append_cons]
  exact ids_place_eq (hg.place id) (ids_place_eq hg h id) first

theorem ids_foldl_addId_eq (hg : g.Coherent) (h : g.ids = l.eraseDups) (ids : List String) :
    (ids.foldl PrecedenceGraph.addId g).Coherent ∧
      (ids.foldl PrecedenceGraph.addId g).ids = (l ++ ids).eraseDups := by
  induction ids generalizing g l with
  | nil => exact ⟨hg, by rwa [List.append_nil]⟩
  | cons id ids ih =>
    rw [List.foldl_cons, List.append_cons]
    exact ih (hg.place id) (ids_place_eq hg h id)

theorem ids_apply_eq (hg : g.Coherent) (h : g.ids = l.eraseDups) (op : GraphOp) :
    (op.apply g).ids = (l ++ op.mentions).eraseDups := by
  cases op with
  | addId id => exact ids_place_eq hg h id
  | addConstraint id first location => exact ids_addConstraint_eq hg h id first location
  | close =>
    rw [GraphOp.mentions, List.append_nil, ← h]
    exact hg.close.2.ids
  | order log =>
    rw [GraphOp.mentions, List.append_nil, ← h]
    exact ids_order hg log
  | arrange ids log =>
    obtain ⟨hcoherent, hids⟩ := ids_foldl_addId_eq hg h ids
    show (InstallerLinker.arrange id g ids log).graph.ids = _
    rw [graph_arrange, ids_order hcoherent]
    exact hids

end

/-- The ids stand in the order in which they were first mentioned. -/
theorem ids_run (ops : List GraphOp) : (run ops).ids = (mentionedIds ops).eraseDups := by
  induction ops using List.reverseRecOn with
  | nil => rfl
  | append_singleton ops op ih =>
    have h := ids_apply_eq (reflects_run ops).coherent ih op
    rw [mentionedIds, List.flatMap_append, List.flatMap_singleton]
    rw [run, List.foldl_append, List.foldl_cons, List.foldl_nil]
    exact h

/-! ## Constraints by their ids -/

/-- All constraints of the graph: those of each id, in order. -/
def idConstraints (g : PrecedenceGraph) : List IdConstraint :=
  (List.range g.size).flatMap fun i =>
    (g.constraintsAt i).map fun c => ⟨g.idAt i, g.idAt c.target, c.location⟩

/-- By one constraint that was stated, `a` must come after `b`. -/
def StatedFollows (g : PrecedenceGraph) (a b : String) : Prop :=
  ∃ c ∈ g.idConstraints, c.id = a ∧ c.first = b ∧ c.location ≠ none

/-- As no two constraints lead from one position to another, each is the one that is
    found there. -/
theorem Coherent.constraint?_eq_some_iff (hg : g.Coherent) {i j : Nat} {c : Constraint} :
    g.constraint? i j = some c ↔ c ∈ g.constraintsAt i ∧ c.target = j := by
  constructor
  · exact fun h => ⟨List.mem_of_find?_eq_some h, target_of_constraint? h⟩
  · rintro ⟨hc, rfl⟩
    cases hfind : g.constraint? i c.target with
    | none =>
      exact absurd (List.mem_map_of_mem hc) (constraint?_eq_none_iff.1 hfind)
    | some c' =>
      have hc' := List.mem_of_find?_eq_some hfind
      have hnodup := hg.nodup_targets i
      rw [Option.some.injEq]
      exact List.inj_on_of_nodup_map hnodup hc' hc (target_of_constraint? hfind)

theorem mem_idConstraints_iff (hg : g.Coherent) {c : IdConstraint} :
    c ∈ g.idConstraints ↔ ∃ i j, g.Edge i j ∧ g.idAt i = c.id ∧ g.idAt j = c.first ∧
      g.statedAt? i j = c.location := by
  simp only [idConstraints, List.mem_flatMap, List.mem_map, List.mem_range]
  constructor
  · rintro ⟨i, -, k, hk, rfl⟩
    have hfind := hg.constraint?_eq_some_iff.2 ⟨hk, rfl⟩
    exact ⟨i, k.target, edge_of_constraint? hfind, rfl, rfl, by rw [statedAt?, hfind]; rfl⟩
  · rintro ⟨i, j, hij, hid, hfirst, hlocation⟩
    obtain ⟨k, hk⟩ :=
      Option.ne_none_iff_exists'.1 (mt constraint?_eq_none_iff.1 (not_not_intro hij))
    obtain ⟨hmem, rfl⟩ := hg.constraint?_eq_some_iff.1 hk
    refine ⟨i, hij.lt_size, k, hmem, ?_⟩
    rw [statedAt?, hk, Option.bind_some] at hlocation
    rw [hid, hfirst, hlocation]

theorem follows_iff_idConstraint (hg : g.Coherent) {a b : String} :
    g.Follows a b ↔ ∃ c ∈ g.idConstraints, c.id = a ∧ c.first = b := by
  rw [follows_iff hg]
  constructor
  · rintro ⟨i, j, hij, hid, hfirst⟩
    exact ⟨⟨a, b, g.statedAt? i j⟩, (mem_idConstraints_iff hg).2 ⟨i, j, hij, hid, hfirst, rfl⟩,
      rfl, rfl⟩
  · rintro ⟨c, hc, rfl, rfl⟩
    obtain ⟨i, j, hij, hid, hfirst, -⟩ := (mem_idConstraints_iff hg).1 hc
    exact ⟨i, j, hij, hid, hfirst⟩

/-- No two constraints of a graph are about the same ids in the same order. -/
theorem Coherent.nodup_idConstraints (hg : g.Coherent) :
    (g.idConstraints.map fun c => (c.id, c.first)).Nodup := by
  have hpairs : g.idConstraints.map (fun c => (c.id, c.first)) =
      (List.range g.size).flatMap fun i => (g.targetsAt i).map fun j => (g.idAt i, g.idAt j) := by
    simp only [idConstraints, targetsAt, List.map_flatMap, List.map_map]
    rfl
  rw [hpairs, List.nodup_flatMap]
  refine ⟨fun i _ => ?_, List.nodup_range.imp_of_mem fun {i k} hi hk hne => ?_⟩
  · refine (hg.nodup_targets i).map_on fun j hj k hk hjk => ?_
    exact hg.idAt_inj (hg.target_lt hj) (hg.target_lt hk) (Prod.mk.inj hjk).2
  · intro p hp hp'
    obtain ⟨j, -, rfl⟩ := List.mem_map.1 hp
    obtain ⟨m, -, hpair⟩ := List.mem_map.1 hp'
    exact hne (hg.idAt_inj (List.mem_range.1 hi) (List.mem_range.1 hk) (Prod.mk.inj hpair).1.symm)

/-! ## What the parts go back to -/

namespace Reflects

theorem location_eq_firstStated? (h : g.Reflects ss) {c : IdConstraint}
    (hc : c ∈ g.idConstraints) : c.location = firstStated? ss c.id c.first := by
  obtain ⟨i, j, hij, hid, hfirst, hlocation⟩ := (mem_idConstraints_iff h.coherent).1 hc
  rw [← hlocation, h.statedAt?_eq hij.lt_size (h.coherent.target_lt hij), hid, hfirst]

theorem exists_idConstraint (h : g.Reflects ss) {s : Statement} (hs : s ∈ ss) :
    ∃ c ∈ g.idConstraints, c.id = s.id ∧ c.first = s.first := by
  obtain ⟨i, hi, hid⟩ := h.exists_position (h.known s hs).1
  obtain ⟨j, hj, hfirst⟩ := h.exists_position (h.known s hs).2
  exact ⟨⟨s.id, s.first, g.statedAt? i j⟩, (mem_idConstraints_iff h.coherent).2
    ⟨i, j, h.edge_of_statement hs hi hj hid hfirst, hid, hfirst, rfl⟩, rfl, rfl⟩

theorem statedFollows_iff (h : g.Reflects ss) {a b : String} :
    g.StatedFollows a b ↔ ∃ s ∈ ss, s.id = a ∧ s.first = b := by
  constructor
  · rintro ⟨c, hc, rfl, rfl, hlocation⟩
    obtain ⟨location, hsome⟩ := Option.ne_none_iff_exists'.1 hlocation
    exact exists_of_firstStated? ((h.location_eq_firstStated? hc).symm.trans hsome)
  · rintro ⟨s, hs, rfl, rfl⟩
    obtain ⟨c, hc, hid, hfirst⟩ := h.exists_idConstraint hs
    obtain ⟨location, hsome⟩ := exists_firstStated? hs
    refine ⟨c, hc, hid, hfirst, ?_⟩
    rw [h.location_eq_firstStated? hc, hid, hfirst, hsome]
    exact Option.some_ne_none location

/-- Chains of constraints that were stated are chains of statements. -/
theorem transGen_statedFollows_iff (h : g.Reflects ss) {a b : String} :
    TransGen g.StatedFollows a b ↔ MustFollow ss a b :=
  ⟨fun hab => hab.lift id fun _ _ => h.statedFollows_iff.1,
    fun hab => hab.lift id fun _ _ => h.statedFollows_iff.2⟩

theorem mustFollow_of_follows (h : g.Reflects ss) {a b : String} (hab : g.Follows a b) :
    MustFollow ss a b := by
  obtain ⟨i, j, hij, rfl, rfl⟩ := (follows_iff h.coherent).1 hab
  exact h.follows hij

/-- Implied constraints lead nowhere where those that were stated do not. -/
theorem transGen_follows_iff (h : g.Reflects ss) {a b : String} :
    TransGen g.Follows a b ↔ TransGen g.StatedFollows a b := by
  constructor
  · intro hab
    rw [h.transGen_statedFollows_iff]
    exact hab.lift' id fun _ _ => h.mustFollow_of_follows
  · refine fun hab => hab.lift id fun a b hstep => ?_
    obtain ⟨c, hc, hid, hfirst, -⟩ := hstep
    exact (follows_iff_idConstraint h.coherent).2 ⟨c, hc, hid, hfirst⟩

/-- What must follow by the statements leads there by the constraints. -/
theorem mustFollow_iff (h : g.Reflects ss) {a b : String} :
    MustFollow ss a b ↔ TransGen g.Follows a b :=
  (h.transGen_follows_iff.trans h.transGen_statedFollows_iff).symm

/-- A constraint is new unless the same was stated before. -/
theorem snd_addConstraint_iff (h : g.Reflects ss) (id first : String) (location : Location) :
    (g.addConstraint id first location).2 = true ↔ ∀ s ∈ ss, ¬ (s.id = id ∧ s.first = first) := by
  have hid := placed_lt_size h.coherent id
  have hplace := h.place id
  have hboth := hplace.place first
  have hstated := hboth.statedAt?_eq
    (Nat.lt_of_lt_of_le hid (size_le_size_place hplace.coherent first))
    (placed_lt_size hplace.coherent first)
  rw [idAt_placed hplace.coherent, idAt_place hplace.coherent first hid,
    idAt_placed h.coherent] at hstated
  rw [addConstraint_eq, snd_stateAt, hstated, firstStated?, Option.isNone_map,
    Option.isNone_iff_eq_none, List.find?_eq_none]
  simp

end Reflects

/-- What the ids and the constraints of a graph have to do with the steps by which it
    was built. -/
structure Traces (g : PrecedenceGraph) (ops : List GraphOp) : Prop where
  nodup_ids : g.ids.Nodup
  /-- The ids stand in the order in which they were first mentioned. -/
  ids : g.ids = (mentionedIds ops).eraseDups
  /-- An id is found where it stands, and no other id is found. -/
  position?_iff : ∀ id i, g.position? id = some i ↔ g.ids[i]? = some id
  /-- There is at most one constraint for each pair of ids. -/
  nodup_pairs : (g.idConstraints.map fun c => (c.id, c.first)).Nodup
  /-- What was stated is a constraint. -/
  stated : ∀ s ∈ statements ops, ∃ c ∈ g.idConstraints, c.id = s.id ∧ c.first = s.first
  /-- A constraint is located where it was first stated, and nowhere if it was not. -/
  location : ∀ c ∈ g.idConstraints, c.location = firstStated? (statements ops) c.id c.first
  /-- What was not stated follows from constraints that were. -/
  implied : ∀ c ∈ g.idConstraints, c.location = none → TransGen g.StatedFollows c.id c.first

theorem Reflects.traces {ops : List GraphOp} (h : g.Reflects (statements ops))
    (hids : g.ids = (mentionedIds ops).eraseDups) : g.Traces ops where
  nodup_ids := h.coherent.nodup_ids
  ids := hids
  position?_iff id i := by rw [h.coherent.position?_iff, getElem?_ids_eq_some_iff]
  nodup_pairs := h.coherent.nodup_idConstraints
  stated _ := h.exists_idConstraint
  location _ := h.location_eq_firstStated?
  implied c hc _ := by
    rw [h.transGen_statedFollows_iff]
    exact h.mustFollow_of_follows ((follows_iff_idConstraint h.coherent).2 ⟨c, hc, rfl, rfl⟩)

/-- **Where the parts of a graph come from.**  Whatever steps a graph was built by, its
    ids and constraints go back to them as `Traces` says; a search for cycles in between
    makes no difference, for it leaves the graph as it is.  Hence a constraint counts as
    new exactly if no step before stated it, however often it was implied in the meantime,
    and one id must follow another, or itself, exactly if it must do so by the constraints
    that were stated. -/
theorem traces_run (ops : List GraphOp) :
    (run ops).Traces ops ∧
      (∀ a b location, ((run ops).addConstraint a b location).2 = true ↔
        ∀ s ∈ statements ops, ¬ (s.id = a ∧ s.first = b)) ∧
      ∀ a b, TransGen (run ops).Follows a b ↔ TransGen (run ops).StatedFollows a b := by
  have h := reflects_run ops
  refine ⟨h.traces (ids_run ops), h.snd_addConstraint_iff, fun a b => ?_⟩
  exact h.transGen_follows_iff

/-- A chain of three ids that is closed, so that its ends are constrained too; only then
    the same is stated of the ends. -/
def statedLate : List GraphOp :=
  [.addConstraint "b" "c" (.atLine "chain" 1), .addConstraint "a" "b" (.atLine "chain" 2), .close,
    .addConstraint "a" "c" (.atLine "chain" 3), .close, .addConstraint "a" "b" .unknown]

theorem traces_statedLate :
    (run statedLate).ids = ["b", "c", "a"] ∧
      (run (statedLate.take 3)).idConstraints =
        [⟨"b", "c", some (.atLine "chain" 1)⟩, ⟨"a", "b", some (.atLine "chain" 2)⟩,
          ⟨"a", "c", none⟩] ∧
      TransGen (run (statedLate.take 3)).StatedFollows "a" "c" ∧
      ((run (statedLate.take 3)).addConstraint "a" "c" (.atLine "chain" 3)).2 = true ∧
      (run statedLate).idConstraints =
        [⟨"b", "c", some (.atLine "chain" 1)⟩, ⟨"a", "b", some (.atLine "chain" 2)⟩,
          ⟨"a", "c", some (.atLine "chain" 3)⟩] := by
  have hbefore : (run (statedLate.take 3)).idConstraints =
      [⟨"b", "c", some (.atLine "chain" 1)⟩, ⟨"a", "b", some (.atLine "chain" 2)⟩,
        ⟨"a", "c", none⟩] := by decide +kernel
  obtain ⟨htraces, hnew, -⟩ := traces_run (statedLate.take 3)
  refine ⟨by decide +kernel, hbefore, ?_, ?_, by decide +kernel⟩
  · exact htraces.implied ⟨"a", "c", none⟩ (by rw [hbefore]; simp) rfl
  · exact (hnew "a" "c" _).2 (by decide)

end PrecedenceGraph

end InstallerLinker
