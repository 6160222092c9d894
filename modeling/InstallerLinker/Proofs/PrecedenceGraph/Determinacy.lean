/-
  Installer linker — the order depends on what was stated, not on how.

  Graphs that were built in different ways number their ids differently, keep
  their constraints in another order, and differ in what has been implied by the
  time that an order is asked for.  The order shows none of this: there is one if
  no id must follow itself by the statements, and then it is the least list that
  meets them.

  * `Reflects.order_cases` says so of one graph, in terms of its ids and the
    statements that it reflects;
  * `SameContent` compares two runs by the ids and the statements that they leave,
    and `order_run_eq` says that they lead to one order.
-/
import InstallerLinker.Proofs.PrecedenceGraph.LeastOrder

namespace InstallerLinker

/-- The same pairs of ids are stated, wherever and how often that may be. -/
def SamePairs (ss ss' : List Statement) : Prop :=
  ∀ a b, (∃ s ∈ ss, s.id = a ∧ s.first = b) ↔ ∃ s ∈ ss', s.id = a ∧ s.first = b

theorem SamePairs.symm {ss ss' : List Statement} (h : SamePairs ss ss') : SamePairs ss' ss :=
  fun a b => (h a b).symm

theorem SamePairs.mustFollow {ss ss' : List Statement} (h : SamePairs ss ss') {a b : String}
    (hab : MustFollow ss a b) : MustFollow ss' a b :=
  hab.lift id fun a b => (h a b).1

theorem SamePairs.mentions {ss ss' : List Statement} (h : SamePairs ss ss') {id : String}
    (hid : ∃ s ∈ ss, id = s.id ∨ id = s.first) : ∃ s ∈ ss', id = s.id ∨ id = s.first := by
  obtain ⟨s, hs, hid⟩ := hid
  obtain ⟨s', hs', hfirst, hsecond⟩ := (h s.id s.first).1 ⟨s, hs, rfl, rfl⟩
  exact ⟨s', hs', hfirst ▸ hsecond ▸ hid⟩

namespace PrecedenceGraph
open Relation

variable {g g' : PrecedenceGraph} {ss ss' : List Statement}

theorem IsOrder.congr {ids ids' : List String} {list : List String} (h : IsOrder ids ss list)
    (hids : ids.Perm ids') (hss : SamePairs ss ss') : IsOrder ids' ss' list where
  perm := h.perm.trans hids
  follows a b hab := h.follows a b (hss.symm.mustFollow hab)

theorem orders_congr {ids ids' : List String} (hids : ids.Perm ids') (hss : SamePairs ss ss') :
    {list | IsOrder ids ss list} = {list | IsOrder ids' ss' list} := by
  ext list
  exact ⟨fun hlist => hlist.congr hids hss, fun hlist => hlist.congr hids.symm hss.symm⟩

/-- Whatever has been implied in a graph, it has no order if some id must follow
    itself by the statements, and otherwise the least one that meets them. -/
theorem Reflects.order_cases (h : g.Reflects ss) (log : Log CircularConstraint) :
    ((∃ id, MustFollow ss id id) ∧
      ∃ c cs log', g.order log = (none, g, log') ∧ log'.toList = log.toList ++ c :: cs) ∨
    ((∀ id, ¬ MustFollow ss id id) ∧
      ∃ list, g.order log = (some list, g.close, log) ∧
        IsLeast {list | IsOrder g.ids ss list} list) := by
  by_cases hcycle : ∃ id, MustFollow ss id id
  · exact Or.inl ⟨hcycle, order_of_cycle h.coherent log (h.exists_cycle_iff.2 hcycle)⟩
  · have hacyclic : ∀ id, ¬ MustFollow ss id id := fun id hid => hcycle ⟨id, hid⟩
    have hleast := h.close.isLeast_sorted hacyclic
    rw [h.coherent.close.2.ids] at hleast
    exact Or.inr ⟨hacyclic, _, order_of_acyclic h.coherent log (h.acyclic hacyclic), hleast⟩

/-- Graphs with the same ids that reflect the same pairs have the same order. -/
theorem Reflects.order_congr (h : g.Reflects ss) (h' : g'.Reflects ss')
    (hids : ∀ id, id ∈ g.ids ↔ id ∈ g'.ids) (hss : SamePairs ss ss')
    (log log' : Log CircularConstraint) : (g.order log).1 = (g'.order log').1 := by
  have hperm : g.ids.Perm g'.ids :=
    (List.perm_ext_iff_of_nodup h.coherent.nodup_ids h'.coherent.nodup_ids).2 hids
  rcases h.order_cases log with ⟨⟨id, hid⟩, _, _, _, hnone, -⟩ | ⟨hacyclic, list, hlist, hleast⟩
  · rcases h'.order_cases log' with ⟨-, _, _, _, hnone', -⟩ | ⟨hacyclic', -⟩
    · rw [hnone, hnone']
    · exact absurd (hss.mustFollow hid) (hacyclic' id)
  · rcases h'.order_cases log' with ⟨⟨id, hid⟩, -⟩ | ⟨-, list', hlist', hleast'⟩
    · exact absurd (hss.symm.mustFollow hid) (hacyclic id)
    · rw [orders_congr hperm hss] at hleast
      rw [hlist, hlist', hleast.unique hleast']

/-- To order a graph leaves its ids as they are. -/
theorem ids_order (hg : g.Coherent) (log : Log CircularConstraint) :
    (g.order log).2.1.ids = g.ids := by
  unfold PrecedenceGraph.order
  split
  · exact hg.close.2.ids
  · rfl

/-- Two runs leave the same ids and the same pairs stated. -/
structure SameContent (ops ops' : List GraphOp) : Prop where
  ids : ∀ id, id ∈ (run ops).ids ↔ id ∈ (run ops').ids
  stated : SamePairs (statements ops) (statements ops')

/-- **The order is a matter of what was stated.**  Two graphs with the same ids,
    for which the same was stated, have the same order or both have none.  It
    does not matter in which order, where and how often that was stated, nor when
    the graph was closed or ordered on the way; in particular the next order is
    the same again. -/
theorem order_run_eq (ops ops' : List GraphOp) (h : SameContent ops ops')
    (log log' : Log CircularConstraint) :
    ((run ops).order log).1 = ((run ops').order log').1 ∧
      (((run ops).order log).2.1.order log').1 = ((run ops).order log).1 := by
  have hops := reflects_run ops
  constructor
  · exact hops.order_congr (reflects_run ops') h.ids h.stated log log'
  · have hids : ∀ id, id ∈ ((run ops).order log).2.1.ids ↔ id ∈ (run ops).ids := fun id => by
      rw [ids_order hops.coherent]
    exact (hops.order log).order_congr hops hids (fun a b => Iff.rfl) log' log

/-- A chain of three ids, built from its end and closed after each step. -/
def chainFromEnd : List GraphOp :=
  [.addConstraint "a" "b" (.atLine "chain" 7), .close, .addConstraint "b" "c" .unknown,
    .order ∅]

/-- The same chain, built from its start and with a constraint said twice. -/
def chainFromStart : List GraphOp :=
  [.addId "c", .addConstraint "b" "c" .unknown, .addConstraint "a" "b" .unknown,
    .addConstraint "b" "c" (.atLine "chain" 3)]

theorem order_run_chain :
    SameContent chainFromEnd chainFromStart ∧
      ((run chainFromEnd).order ∅).1 = some ["c", "b", "a"] ∧
      ((run chainFromStart).order ∅).1 = some ["c", "b", "a"] ∧
      (((run chainFromEnd).order ∅).2.1.order ∅).1 = some ["c", "b", "a"] := by
  have hids : (run chainFromEnd).ids = ["a", "b", "c"] := by cbv
  have hids' : (run chainFromStart).ids = ["c", "b", "a"] := by cbv
  have hcontent : SameContent chainFromEnd chainFromStart := by
    refine ⟨fun id => ?_, fun a b => ?_⟩
    · rw [hids, hids']
      simp only [List.mem_cons, List.not_mem_nil, or_false]
      tauto
    · have hpairs : statements chainFromEnd =
          [⟨"a", "b", .atLine "chain" 7⟩, ⟨"b", "c", .unknown⟩] := rfl
      have hpairs' : statements chainFromStart =
          [⟨"b", "c", .unknown⟩, ⟨"a", "b", .unknown⟩, ⟨"b", "c", .atLine "chain" 3⟩] := rfl
      rw [hpairs, hpairs']
      simp only [List.mem_cons, List.not_mem_nil, or_false, exists_eq_or_imp, exists_eq_left]
      tauto
  obtain ⟨hsame, hagain⟩ := order_run_eq chainFromEnd chainFromStart hcontent ∅ ∅
  have hstart : ((run chainFromStart).order ∅).1 = some ["c", "b", "a"] := by cbv
  rw [hstart] at hsame
  rw [hsame] at hagain
  exact ⟨hcontent, hsame, hstart, hagain⟩

end PrecedenceGraph

end InstallerLinker
