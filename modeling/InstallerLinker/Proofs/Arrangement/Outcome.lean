/-
  Installer linker — all that comes of arranging items.

  To arrange items makes their ids known to the graph, asks it for an order and, if there
  is one, sorts the items by it.  The order is one of more ids than those of the items, and
  several items may have one id.  If there is no order, all that is left of the attempt are
  the ids and the reports.

  * `Admits` says what it is to make ids known to a graph;
  * `ArrangedBy` says what it is to put items into the order of their ids;
  * `arrange_run` gives both outcomes, for every graph that can be built.
-/
import InstallerLinker.Proofs.Arrangement
import InstallerLinker.Proofs.PrecedenceGraph.CycleLocation
import InstallerLinker.Proofs.PrecedenceGraph.Provenance
import InstallerLinker.Proofs.PrecedenceGraph.Saturation

namespace InstallerLinker

namespace PrecedenceGraph
open Relation

variable {g : PrecedenceGraph} {ss : List Statement}

/-! ## Further ids -/

/-- The graph `g'` is `g` with some ids besides. -/
structure Admits (g : PrecedenceGraph) (ids : List String) (g' : PrecedenceGraph) : Prop where
  /-- Those that are new stand behind the others, in order. -/
  ids : g'.ids = (g.ids ++ ids).eraseDups
  constraintsOf : ∀ a, g'.constraintsOf a = g.constraintsOf a

theorem constraintsOf_addId (hg : g.Coherent) (id a : String) :
    (g.addId id).constraintsOf a = g.constraintsOf a := by
  rcases hg.place_cases id with ⟨_, -, -, he⟩ | ⟨hnew, -, -, -, hconstraints, hposition?⟩
  · rw [addId, he]
  · rw [addId, constraintsOf, hposition?, constraintsOf]
    by_cases hid : id = a
    · have hnone : g.position? a = none := by
        rw [hid, hg.mem_ids_iff, ← Option.isSome_iff_exists, Option.not_isSome_iff_eq_none] at hnew
        exact hnew
      simp only [if_pos hid, hnone, hconstraints, constraintsAt_of_size_le (Nat.le_refl _),
        List.map_nil]
    · rw [if_neg hid]
      cases g.position? a with
      | none => rfl
      | some i =>
        simp only [hconstraints]
        refine List.map_congr_left fun c hc => ?_
        rw [idAt_place hg id (hg.target_lt (List.mem_map_of_mem hc))]

theorem eraseDups_of_nodup {ids : List String} (h : ids.Nodup) : ids.eraseDups = ids := by
  induction ids using List.reverseRecOn with
  | nil => rfl
  | append_singleton ids id ih =>
    obtain ⟨hids, -, hnew⟩ := List.nodup_append.1 h
    have hid : id ∉ ids := fun hmem => hnew id hmem id (List.mem_singleton_self id) rfl
    rw [eraseDups_append_singleton, if_neg hid, ih hids]

theorem Coherent.admits_foldl_addId (hg : g.Coherent) (ids : List String) :
    g.Admits ids (ids.foldl addId g) where
  ids := (ids_foldl_addId_eq hg (eraseDups_of_nodup hg.nodup_ids).symm ids).2
  constraintsOf a := by
    induction ids generalizing g with
    | nil => rfl
    | cons id ids ih =>
      rw [List.foldl_cons, ih (g := g.addId id) (hg.place id), constraintsOf_addId hg]

/-! ## Reports instead of an order -/

theorem exists_reports_order (hg : g.Coherent) (log : Log CircularConstraint) :
    ∃ reports, (g.order log).2.2.toList = log.toList ++ reports ∧ g.TellsCycles reports := by
  obtain ⟨cycles, hcycles⟩ := exists_cyclesReported g log g.size
  exact ⟨_, (congrArg Log.toList (log_order g log)).trans hcycles.log, hcycles.tellsCycles hg⟩

end PrecedenceGraph

open PrecedenceGraph Relation

/-! ## The outcomes -/

/-- The items `items'` are `items` in the order of their ids. -/
structure ArrangedBy {α : Type} (key : α → String) (order : List String)
    (items items' : List α) : Prop where
  /-- They are the items of the first id as they stood, then those of the second, and so
      on. -/
  eq_flatMap : items' = order.flatMap fun id => items.filter (key · == id)
  perm : items'.Perm items
  /-- Each item has a place in the order, at which its id stands. -/
  ranked : ∀ a ∈ items, ∃ i : Nat, (ranks order)[key a]? = some i ∧ order[i]? = some (key a)

theorem arrangedBy_sortByOrder {α : Type} {key : α → String} {order : List String}
    {items : List α} (hnodup : order.Nodup) (hkeys : ∀ a ∈ items, key a ∈ order) :
    ArrangedBy key order items (sortByOrder key order items) where
  eq_flatMap := sortByOrder_eq_flatMap hnodup hkeys
  perm := sortByOrder_perm key order items
  ranked a ha := by
    refine ⟨order.idxOf (key a), ?_, List.getElem?_idxOf (hkeys a ha)⟩
    rw [ranks, getElem?_foldl_insert_zipIdx hnodup, if_pos (hkeys a ha), Nat.zero_add]

theorem log_arrange {α : Type} (key : α → String) (g : PrecedenceGraph) (items : List α)
    (log : Log CircularConstraint) :
    (arrange key g items log).log =
      (((items.map key).foldl PrecedenceGraph.addId g).order log).2.2 := by
  unfold arrange
  split
  · next he => rw [he]
  · next he => rw [he]

/-- **What comes of arranging items.**  However a graph was built, items can be arranged by
    it exactly if no id must follow itself.  Then the ids of the graph and of the items have
    a least order, and the items are put into it; there are items for each place, one or
    several or none, and nothing is reported.  Otherwise the items stay as they are, the
    graph only gets to know their ids, and its cycles are reported. -/
theorem arrange_run {α : Type} (key : α → String) (ops : List GraphOp) (items : List α)
    (log : Log CircularConstraint) :
    ((arrange key (run ops) items log).succeeded = true ↔
        ∀ id, ¬ TransGen (run ops).Follows id id) ∧
      match arrange key (run ops) items log with
      | ⟨true, items', g', log'⟩ =>
        ∃ order, (((items.map key).foldl PrecedenceGraph.addId (run ops)).order log).1 =
            some order ∧
          IsLeast {list | IsOrder ((run ops).ids ++ items.map key).eraseDups (statements ops) list}
            order ∧
          ArrangedBy key order items items' ∧
          g'.IsClosureOf ((items.map key).foldl PrecedenceGraph.addId (run ops)) ∧ log' = log
      | ⟨false, items', g', log'⟩ =>
        items' = items ∧ (run ops).Admits (items.map key) g' ∧
          ∃ reports, log'.toList = log.toList ++ reports ∧ reports ≠ [] ∧
            g'.TellsCycles reports := by
  have h := reflects_run ops
  have hall := h.foldl_addId (items.map key)
  have hadmits := h.coherent.admits_foldl_addId (items.map key)
  rcases arrange_cases h key items log with
    ⟨⟨id, hid⟩, c, cs, log', harrange, hlog⟩ |
      ⟨hacyclic, order, harrange, horder, hnodup, hkeys, hleast⟩
  · obtain ⟨reports, hreports, htells⟩ := exists_reports_order hall.coherent log
    rw [← log_arrange, harrange] at hreports
    have hsome : reports ≠ [] := by
      obtain ⟨r, hr, -⟩ := (htells.covers id).1 (hall.mustFollow_iff.1 hid)
      exact List.ne_nil_of_mem hr
    rw [harrange]
    refine ⟨⟨nofun, fun hno => absurd (h.mustFollow_iff.1 hid) (hno id)⟩, rfl, hadmits, ?_⟩
    exact ⟨reports, hreports, hsome, htells⟩
  · rw [hadmits.ids] at hleast
    rw [harrange]
    refine ⟨⟨fun _ id => mt h.mustFollow_iff.2 (hacyclic id), fun _ => rfl⟩, order, horder,
      hleast, arrangedBy_sortByOrder hnodup hkeys, hall.coherent.isClosureOf_close, rfl⟩

/-- No item has the id `c`, and two have the id `b`. -/
example : (arrange Prod.fst (run [.addConstraint "a" "c" .unknown])
    [("b", 1), ("a", 2), ("b", 3)] ∅).items = [("b", 1), ("b", 3), ("a", 2)] := by cbv

end InstallerLinker
