/-
  Installer linker — where the constraints of a reported cycle come from.

  Closing a graph implies nothing for an id on a cycle.  But an id for which something
  was implied may come to be on a cycle later, when more is stated, and a search for
  cycles goes along implied constraints too.  So a report may contain a constraint that
  nobody stated.

  * `Stated` and `ImpliedEarlier` are the two origins of a constraint, and
    `stated_or_impliedEarlier` says that there is no other;
  * `StatesFirst` holds of steps that state nothing more once the graph may have been
    closed;
  * `origins_reports_run` says what the constraints in a report go back to, and that
    after such steps all of them were stated; `implied_lateCycle` is a report with one
    that was not.
-/
import InstallerLinker.Proofs.PrecedenceGraph.CycleLocation
import InstallerLinker.Proofs.PrecedenceGraph.Provenance

namespace InstallerLinker
open Relation

/-! ## Origins of constraints -/

/-- Whether a step closes the graph, be it only if the graph can be ordered. -/
def GraphOp.closes : GraphOp → Bool
  | addId _ => false
  | addConstraint _ _ _ => false
  | close => true
  | order _ => true
  | arrange _ _ => true

theorem GraphOp.statement?_eq_none_of_closes {op : GraphOp} (h : op.closes = true) :
    op.statement? = none := by
  cases op with
  | addConstraint id first location => cases h
  | _ => rfl

/-- Some step states that `a` must come after `b`. -/
def Stated (ops : List GraphOp) (a b : String) : Prop :=
  ∃ s ∈ statements ops, s.id = a ∧ s.first = b

/-- Some step closes the graph, and what was stated before it makes `a` come after `b`,
    but not after itself. -/
def ImpliedEarlier (ops : List GraphOp) (a b : String) : Prop :=
  ∃ before op, before ++ [op] <+: ops ∧ op.closes = true ∧
    MustFollow (statements before) a b ∧ ¬ MustFollow (statements before) a a

theorem ImpliedEarlier.mono {ops ops' : List GraphOp} {a b : String} (h : ImpliedEarlier ops a b)
    (hops : ops <+: ops') : ImpliedEarlier ops' a b := by
  obtain ⟨before, op, hbefore, hop⟩ := h
  exact ⟨before, op, hbefore.trans hops, hop⟩

/-- Once a step closes the graph, no later one states anything. -/
def StatesFirst (ops : List GraphOp) : Prop :=
  ops.Pairwise fun op later => op.closes = true → later.statement? = none

instance (ops : List GraphOp) : Decidable (StatesFirst ops) :=
  inferInstanceAs (Decidable (ops.Pairwise _))

/-- Then all that is stated had been stated when the graph was first closed. -/
theorem StatesFirst.statements_eq {ops before : List GraphOp} {op : GraphOp} (h : StatesFirst ops)
    (hbefore : before ++ [op] <+: ops) (hop : op.closes = true) :
    statements ops = statements before := by
  obtain ⟨after, rfl⟩ := hbefore
  have hafter : statements after = [] := by
    refine List.filterMap_eq_nil_iff.2 fun later hlater => ?_
    have hpair := (List.pairwise_append.1 h).2.2 op (by simp) later hlater
    exact hpair hop
  have hnone : statements [op] = [] := by
    rw [statements, List.filterMap_cons, GraphOp.statement?_eq_none_of_closes hop,
      List.filterMap_nil]
  rw [statements, List.filterMap_append, List.filterMap_append, ← statements, ← statements,
    ← statements, hnone, hafter, List.append_nil, List.append_nil]

/-- So nothing was implied for an id that must follow itself. -/
theorem StatesFirst.not_impliedEarlier {ops : List GraphOp} {a b : String} (h : StatesFirst ops)
    (hself : MustFollow (statements ops) a a) : ¬ ImpliedEarlier ops a b := by
  rintro ⟨before, op, hbefore, hop, -, hacyclic⟩
  rw [h.statements_eq hbefore hop] at hself
  exact hacyclic hself

namespace PrecedenceGraph
variable {g : PrecedenceGraph} {ops : List GraphOp} {op : GraphOp}

/-! ## Runs -/

/-- Every constraint that was not stated was implied by one of the steps. -/
def Originates (g : PrecedenceGraph) (ops : List GraphOp) : Prop :=
  ∀ i j, g.Edge i j → g.statedAt? i j = none → ImpliedEarlier ops (g.idAt i) (g.idAt j)

namespace Originates

theorem mono {ops' : List GraphOp} (h : g.Originates ops) (hops : ops <+: ops') :
    g.Originates ops' :=
  fun i j hij hstated => (h i j hij hstated).mono hops

theorem place (hg : g.Coherent) (h : g.Originates ops) (id : String) :
    (g.place id).1.Originates ops := by
  intro i j hij hstated
  rw [Edge, targetsAt, constraintsAt_place hg, ← targetsAt, ← Edge] at hij
  rw [statedAt?, constraint?, constraintsAt_place hg, ← constraint?, ← statedAt?] at hstated
  rw [idAt_place hg id hij.lt_size, idAt_place hg id (hg.target_lt hij)]
  exact h i j hij hstated

theorem addConstraint (hg : g.Coherent) (h : g.Originates ops) (id first : String)
    (location : Location) : (g.addConstraint id first location).1.Originates ops := by
  have hid := hg.place id
  have hlt := Nat.lt_of_lt_of_le (placed_lt_size hg id) (size_le_size_place hid first)
  rw [addConstraint_eq]
  intro i j hij hstated
  obtain ⟨-, hidAt, -⟩ := stateAt_same (g := ((g.place id).1.place first).1) (g.place id).2
    ((g.place id).1.place first).2 location
  obtain ⟨hold, hunstated⟩ := edge_of_unstated hlt location hij hstated
  rw [hidAt, hidAt]
  exact (h.place hg id).place hid first i j hold hunstated

end Originates

/-- While a step that closes the graph is under way, the graph reflects what was stated
    before, and what it has been given counts as implied by this step or an earlier one. -/
structure Closing (g : PrecedenceGraph) (ops : List GraphOp) (op : GraphOp) : Prop where
  closes : op.closes = true
  reflects : g.Reflects (statements ops)
  originates : g.Originates (ops ++ [op])

namespace Closing

theorem place (hg : g.Coherent) (h : g.Closing ops op) (id : String) :
    (g.place id).1.Closing ops op :=
  ⟨h.closes, h.reflects.place id, h.originates.place hg id⟩

/-- What is implied for a position when it is closed follows from what has been stated,
    and the position is on no cycle. -/
theorem closeAt (hg : g.Coherent) (h : g.Closing ops op) {i : Nat} (hi : i < g.size) :
    (g.closeAt i).Closing ops op := by
  obtain ⟨hcoherent, hextends⟩ := hg.closeAt hi
  refine ⟨h.closes, h.reflects.of_extends hcoherent hextends, fun k m hkm hstated => ?_⟩
  rw [hextends.statedAt?] at hstated
  rw [hextends.idAt, hextends.idAt]
  rcases edge_closeAt_cases hg hi hkm with hkm | ⟨rfl, hacyclic, hkm⟩
  · exact h.originates k m hkm hstated
  · have hm := hg.target_lt_of_transGen hkm
    exact ⟨ops, op, List.prefix_rfl, h.closes, (h.reflects.transGen_iff hi hm).1 hkm,
      mt (h.reflects.transGen_iff hi hi).2 hacyclic⟩

end Closing

theorem Originates.apply (hg : g.Reflects (statements ops)) (h : g.Originates ops) (op : GraphOp) :
    (op.apply g).Originates (ops ++ [op]) := by
  have h := h.mono (List.prefix_append ops [op])
  have hplace : ∀ {g : PrecedenceGraph}, g.Coherent → g.Closing ops op → ∀ id,
      (g.place id).1.Closing ops op := fun hg h id => h.place hg id
  have hclose : ∀ {g : PrecedenceGraph}, g.Coherent → g.Closing ops op → ∀ {i}, i < g.size →
      (g.closeAt i).Closing ops op := fun hg h _ hi => h.closeAt hg hi
  cases op with
  | addId id => exact h.place hg.coherent id
  | addConstraint id first location => exact h.addConstraint hg.coherent id first location
  | close => exact (close_induct hclose hg.coherent ⟨rfl, hg, h⟩).originates
  | order log => exact (order_induct hclose hg.coherent ⟨rfl, hg, h⟩ log).originates
  | arrange ids log =>
    exact (arrange_induct hplace hclose hg.coherent ⟨rfl, hg, h⟩ ids log).originates

theorem originates_run (ops : List GraphOp) : (run ops).Originates ops := by
  induction ops using List.reverseRecOn with
  | nil => exact fun _ _ hij => absurd hij.lt_size (Nat.not_lt_zero _)
  | append_singleton ops op ih =>
    rw [run, List.foldl_append, List.foldl_cons, List.foldl_nil]
    exact ih.apply (reflects_run ops) op

/-- A constraint of a graph was stated, or implied before its id was on a cycle. -/
theorem stated_or_impliedEarlier {a b : String} (h : (run ops).Follows a b) :
    Stated ops a b ∨ ImpliedEarlier ops a b := by
  have hg := reflects_run ops
  obtain ⟨i, j, hij, rfl, rfl⟩ := (follows_iff hg.coherent).1 h
  cases hstated : (run ops).statedAt? i j with
  | none => exact Or.inr (originates_run ops i j hij hstated)
  | some location =>
    rw [hg.statedAt?_eq hij.lt_size (hg.coherent.target_lt hij)] at hstated
    exact Or.inl (exists_of_firstStated? hstated)

/-! ## The constraints in a report -/

/-- **The constraints of a reported cycle.**  Whenever the cycles of a graph are
    reported, be it for themselves or in want of an order, two ids that stand next to
    each other in a chain are constrained by a statement, or by what the graph was given
    when it was closed and the first of them did not yet have to follow itself.  If
    nothing was stated once the graph had been closed, the statement is always there. -/
theorem origins_reports_run (ops : List GraphOp) (log : Log CircularConstraint) :
    ∃ reports, ((run ops).reportCycles log).2.toList = log.toList ++ reports ∧
      ((run ops).order log).2.2.toList = log.toList ++ reports ∧
      ∀ c ∈ reports, ∀ a b, [a, b] <:+: c.chain →
        (Stated ops a b ∨ ImpliedEarlier ops a b) ∧ (StatesFirst ops → Stated ops a b) := by
  have hg := reflects_run ops
  obtain ⟨cycles, hcycles⟩ := exists_cyclesReported (run ops) log (run ops).size
  have htells := hcycles.tellsCycles hg.coherent
  refine ⟨_, hcycles.log, (congrArg Log.toList (log_order _ log)).trans hcycles.log, ?_⟩
  intro c hc a b hab
  have horigin : Stated ops a b ∨ ImpliedEarlier ops a b := by
    obtain ⟨first, ids, hchain, hids⟩ := htells.sound c hc
    rw [hchain] at hab
    have hpair := List.IsChain.infix hids.chain hab
    exact stated_or_impliedEarlier (List.isChain_pair.1 hpair)
  refine ⟨horigin, fun hfirst => horigin.resolve_right (hfirst.not_impliedEarlier ?_)⟩
  have ha : a ∈ c.chain := hab.subset (List.mem_cons_self ..)
  exact hg.mustFollow_iff.2 ((htells.covers a).2 ⟨c, hc, ha⟩)

/-- A cycle of two ids and one that comes after both; then the graph is closed. -/
def closedLast : List GraphOp :=
  [.addConstraint "b" "c" (.atLine "t" 1), .addConstraint "c" "b" (.atLine "t" 2),
    .addConstraint "a" "b" (.atLine "t" 3), .close]

theorem origins_closedLast :
    StatesFirst closedLast ∧
      ((run closedLast).reportCycles ∅).2.toList.map (·.chain) = [["b", "c", "b"]] ∧
      Stated closedLast "b" "c" ∧ Stated closedLast "c" "b" := by
  have hchains : ((run closedLast).reportCycles ∅).2.toList.map (·.chain) = [["b", "c", "b"]] := by
    decide +kernel
  obtain ⟨reports, hlog, -, horigins⟩ := origins_reports_run closedLast ∅
  rw [show (∅ : Log CircularConstraint).toList = [] from rfl, List.nil_append] at hlog
  have hmem : ["b", "c", "b"] ∈ ((run closedLast).reportCycles ∅).2.toList.map (·.chain) := by
    rw [hchains]
    decide
  obtain ⟨c, hc, hchain⟩ := List.mem_map.1 hmem
  rw [hlog] at hc
  have hfirst : StatesFirst closedLast := by decide
  refine ⟨hfirst, hchains, (horigins c hc _ _ ?_).2 hfirst, (horigins c hc _ _ ?_).2 hfirst⟩
  · exact hchain ▸ ⟨[], ["b"], rfl⟩
  · exact hchain ▸ ⟨["b"], [], rfl⟩

/-- An id that comes after another is closed, and only then the two come to be on
    cycles. -/
def lateCycle : List GraphOp :=
  [.addConstraint "b" "x" (.atLine "t" 1), .addConstraint "b" "c" (.atLine "t" 2),
    .addConstraint "a" "b" (.atLine "t" 3), .close, .addConstraint "x" "a" (.atLine "t" 4),
    .addConstraint "c" "b" (.atLine "t" 5)]

/-- The search from `c` comes back along what was implied for `a`, which no step states. -/
theorem implied_lateCycle :
    ∃ c ∈ ((run lateCycle).reportCycles ∅).2.toList, c.chain = ["c", "b", "x", "a", "c"] ∧
      ["a", "c"] <:+: c.chain ∧ ¬ Stated lateCycle "a" "c" := by
  have hchains : ((run lateCycle).reportCycles ∅).2.toList.map (·.chain) =
      [["b", "x", "a", "b"], ["c", "b", "x", "a", "c"]] := by decide +kernel
  have hmem : ["c", "b", "x", "a", "c"] ∈
      ((run lateCycle).reportCycles ∅).2.toList.map (·.chain) := by
    rw [hchains]
    decide
  obtain ⟨c, hc, hchain⟩ := List.mem_map.1 hmem
  refine ⟨c, hc, hchain, hchain ▸ ⟨["c", "b", "x"], [], rfl⟩, ?_⟩
  rintro ⟨s, hs, hid, hfirst⟩
  have hno : ∀ s ∈ statements lateCycle, ¬ (s.id = "a" ∧ s.first = "c") := by decide
  exact hno s hs ⟨hid, hfirst⟩

end PrecedenceGraph

end InstallerLinker
