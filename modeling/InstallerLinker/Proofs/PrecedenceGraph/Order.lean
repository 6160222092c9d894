/-
  Installer linker — what it means to order a graph.

  The cycle search, the closure and the order each work on the graph as it is at
  the time.  Together they answer a question about what was stated: is there an
  order, and which is one?

  * `order_of_acyclic` and `order_of_cycle` are the two outcomes;
  * `order_run` relates them to the statements of a run.
-/
import InstallerLinker.Proofs.PrecedenceGraph.History
import InstallerLinker.Proofs.PrecedenceGraph.Sorting

namespace InstallerLinker.PrecedenceGraph
open Relation

variable {g : PrecedenceGraph} {ss : List Statement}

theorem order_of_acyclic (hg : g.Coherent) (log : Log CircularConstraint)
    (hacyclic : ∀ i, ¬ TransGen g.Edge i i) :
    g.order log = (some g.close.sorted, g.close, log) := by
  rw [PrecedenceGraph.order, reportCycles_of_acyclic hg log hacyclic]

theorem order_of_cycle (hg : g.Coherent) (log : Log CircularConstraint)
    (hcycle : ∃ i, TransGen g.Edge i i) :
    ∃ c cs log', g.order log = (none, g, log') ∧ log'.toList = log.toList ++ c :: cs := by
  obtain ⟨i, hi⟩ := hcycle
  obtain ⟨c, cs, hcount, hlog⟩ := reportCycles_of_cycle hg log hi
  rcases hreport : g.reportCycles log with ⟨count, log'⟩
  rw [hreport] at hcount hlog
  obtain rfl : count = cs.length + 1 := hcount
  exact ⟨c, cs, log', by rw [PrecedenceGraph.order, hreport], hlog⟩

/-- Where no id must follow itself, all ids are sorted, each after those that it
    must follow. -/
theorem Reflects.sorted_spec (h : g.Reflects ss) (hacyclic : ∀ id, ¬ MustFollow ss id id) :
    g.sorted.Nodup ∧ g.sorted.Perm g.ids ∧
      ∀ a b, MustFollow ss a b → [b, a].Sublist g.sorted := by
  have hg := h.coherent
  have hperm := sorted_perm_ids hg (h.acyclic hacyclic)
  refine ⟨nodup_sorted hg, hperm, fun a b hab => ?_⟩
  obtain ⟨i, hi, rfl⟩ := h.exists_position (h.mem_ids_of_mustFollow hab).1
  obtain ⟨j, -, rfl, hij⟩ := h.exists_transGen hi hab
  exact sublist_sorted hg hi (hperm.mem_iff.2 (idAt_mem_ids hi)) hij

/-- **The meaning of an order.**  However a graph was built, there is an order if
    and only if no id must follow itself by what was stated.  Then the order holds
    each id once, after all ids that it must follow, and nothing is reported;
    otherwise cycles are reported and the graph stays as it was. -/
theorem order_run (ops : List GraphOp) (log : Log CircularConstraint) :
    (((run ops).order log).1.isSome = true ↔ ∀ id, ¬ MustFollow (statements ops) id id) ∧
      match (run ops).order log with
      | (some list, _, log') =>
        list.Nodup ∧ list.Perm (run ops).ids ∧
          (∀ a b, MustFollow (statements ops) a b → [b, a].Sublist list) ∧ log' = log
      | (none, g, log') => g = run ops ∧ ∃ c cs, log'.toList = log.toList ++ c :: cs := by
  have h := reflects_run ops
  by_cases hcycle : ∃ id, MustFollow (statements ops) id id
  · obtain ⟨c, cs, log', horder, hlog⟩ := order_of_cycle h.coherent log (h.exists_cycle_iff.2 hcycle)
    rw [horder]
    refine ⟨⟨nofun, fun hacyclic => ?_⟩, rfl, c, cs, hlog⟩
    obtain ⟨id, hid⟩ := hcycle
    exact absurd hid (hacyclic id)
  · have hacyclic : ∀ id, ¬ MustFollow (statements ops) id id := fun id hid => hcycle ⟨id, hid⟩
    have hgraph : ∀ i, ¬ TransGen (run ops).Edge i i := fun i hi =>
      hcycle (h.exists_cycle_iff.1 ⟨i, hi⟩)
    obtain ⟨hnodup, hperm, hlist⟩ := h.close.sorted_spec hacyclic
    rw [order_of_acyclic h.coherent log hgraph]
    rw [h.coherent.close.2.ids] at hperm
    exact ⟨⟨fun _ => hacyclic, fun _ => rfl⟩, hnodup, hperm, hlist, rfl⟩

end InstallerLinker.PrecedenceGraph
