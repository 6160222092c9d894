/-
  Installer linker — what it is to arrange items.

  Items are arranged by the order of a graph that knows their ids.  For each id of the
  order in turn, this lists the items of that id as they stood.  Nothing else of the
  items matters, so what is known of the order carries over to them.

  * `sortByOrder_eq_flatMap` is this description; it comes from three properties of the
    sort, `pairwise_sortByOrder`, `sortByOrder_perm` and `filter_sortByOrder`;
  * `sortByOrder_eq_of_perm`: items of different ids may be given in any order;
  * `arrange_cases` are the two outcomes, `arrange_eq` is both at once, in terms of the
    order of the graph.
-/
import Mathlib.Data.List.Nodup
import InstallerLinker.Proofs.PrecedenceGraph.Determinacy

namespace InstallerLinker
open PrecedenceGraph

/-! ## Places -/

theorem getElem?_foldl_insert_zipIdx {order : List String} (hnodup : order.Nodup) (n : Nat)
    (table : Std.TreeMap String Nat) (id : String) :
    ((order.zipIdx n).foldl (fun table p => table.insert p.1 p.2) table)[id]? =
      if id ∈ order then some (n + order.idxOf id) else table[id]? := by
  induction order generalizing n table with
  | nil => rfl
  | cons a order ih =>
    obtain ⟨ha, hnodup⟩ := List.nodup_cons.1 hnodup
    rw [List.zipIdx_cons, List.foldl_cons, ih hnodup, Std.TreeMap.getElem?_insert]
    by_cases hid : id = a
    · subst hid
      simp [ha]
    · have hcompare : compare a id ≠ .eq := fun h => hid (compare_eq_iff_eq.1 h).symm
      have hidx : n + 1 + order.idxOf id = n + (a :: order).idxOf id := by
        rw [List.idxOf_cons_ne _ (Ne.symm hid)]
        omega
      simp [hid, hcompare, hidx]

/-- Ids that are not in the order have their place behind it. -/
theorem getD_ranks {order : List String} (hnodup : order.Nodup) (id : String) :
    (ranks order).getD id order.length = order.idxOf id := by
  rw [Std.TreeMap.getD_eq_getD_getElem?, ranks, getElem?_foldl_insert_zipIdx hnodup]
  by_cases hid : id ∈ order
  · simp [hid]
  · simp [hid]

/-- In an order without repetitions, what stands before what is told by the places. -/
theorem idxOf_lt_of_sublist {order : List String} (hnodup : order.Nodup) {a b : String}
    (h : [b, a].Sublist order) : order.idxOf b < order.idxOf a := by
  have hpairwise : order.Pairwise fun x y => order.idxOf x < order.idxOf y := by
    rw [List.pairwise_iff_getElem]
    intro i j hi hj hij
    rwa [hnodup.idxOf_getElem, hnodup.idxOf_getElem]
  exact (List.pairwise_cons.1 (hpairwise.sublist h)).1 a (List.mem_singleton_self a)

/-! ## Items in the order of their ids -/

/-- A list in which all entries with a property come first consists of these and the
    others. -/
theorem filter_append_filter_of_pairwise {α : Type} {p : α → Bool} {l : List α}
    (h : l.Pairwise fun a b => p b = true → p a = true) :
    l.filter p ++ l.filter (!p ·) = l := by
  induction l with
  | nil => rfl
  | cons a l ih =>
    obtain ⟨ha, hl⟩ := List.pairwise_cons.1 h
    cases hpa : p a with
    | true => simp [hpa, ih hl]
    | false =>
      have hnone : ∀ b ∈ l, p b = false := fun b hb =>
        Bool.eq_false_iff.2 fun hpb => Bool.false_ne_true (hpa.symm.trans (ha b hb hpb))
      rw [List.filter_eq_nil_iff.2 (by simpa [hpa] using hnone),
        List.filter_eq_self.2 (by simpa [hpa] using hnone), List.nil_append]

section
variable {α : Type} {key : α → String} {order : List String} {items items' : List α}

/-- A list whose entries stand in the order of their ids has those of the first id
    first, then those of the second, and so on. -/
theorem eq_flatMap_of_pairwise (hnodup : order.Nodup) (hkeys : ∀ a ∈ items, key a ∈ order)
    (h : items.Pairwise fun a b => order.idxOf (key a) ≤ order.idxOf (key b)) :
    items = order.flatMap fun id => items.filter (key · == id) := by
  induction order generalizing items with
  | nil => exact List.eq_nil_iff_forall_not_mem.2 fun a ha => List.not_mem_nil (hkeys a ha)
  | cons id order ih =>
    obtain ⟨hid, hnodup⟩ := List.nodup_cons.1 hnodup
    -- the items of the first id stand in front, and the rest of the order speaks of the others
    have hsplit := filter_append_filter_of_pairwise (p := (key · == id)) <|
      h.imp fun {a b} hab hb => by
        rw [beq_iff_eq] at hb ⊢
        by_contra ha
        rw [hb, List.idxOf_cons_self, List.idxOf_cons_ne _ (Ne.symm ha)] at hab
        exact Nat.not_succ_le_zero _ hab
    have hothers : ∀ a ∈ items.filter (!key · == id), key a ∈ order ∧ key a ≠ id := by
      intro a ha
      obtain ⟨ha, hne⟩ := List.mem_filter.1 ha
      have hne : key a ≠ id := by simpa using hne
      exact ⟨(List.mem_cons.1 (hkeys a ha)).resolve_left hne, hne⟩
    have hsorted : (items.filter (!key · == id)).Pairwise fun a b =>
        order.idxOf (key a) ≤ order.idxOf (key b) := by
      refine List.Pairwise.imp_of_mem (fun {a b} ha hb hab => ?_) (h.filter _)
      rw [List.idxOf_cons_ne _ (Ne.symm (hothers a ha).2),
        List.idxOf_cons_ne _ (Ne.symm (hothers b hb).2)] at hab
      exact Nat.le_of_succ_le_succ hab
    have hrest := ih hnodup (fun a ha => (hothers a ha).1) hsorted
    rw [List.flatMap_cons]
    conv_lhs => rw [← hsplit, hrest]
    congr 1
    refine List.flatMap_congr fun id' hid' => ?_
    rw [List.filter_filter]
    refine List.filter_congr fun a _ => ?_
    have hne : id' ≠ id := fun h => hid (h ▸ hid')
    by_cases ha : key a = id'
    · simp [ha, hne]
    · simp [ha]

theorem sortByOrder_perm (key : α → String) (order : List String) (items : List α) :
    (sortByOrder key order items).Perm items :=
  List.mergeSort_perm _ _

section
variable (hnodup : order.Nodup)
include hnodup

theorem placedBefore_iff {a b : α} :
    placedBefore key order (ranks order) a b = true ↔
      order.idxOf (key a) ≤ order.idxOf (key b) := by
  rw [placedBefore, getD_ranks hnodup, getD_ranks hnodup, decide_eq_true_eq]

theorem placedBefore_trans (a b c : α) (hab : placedBefore key order (ranks order) a b = true)
    (hbc : placedBefore key order (ranks order) b c = true) :
    placedBefore key order (ranks order) a c = true := by
  rw [placedBefore_iff hnodup] at *
  exact hab.trans hbc

theorem placedBefore_total (a b : α) :
    (placedBefore key order (ranks order) a b ||
      placedBefore key order (ranks order) b a) = true := by
  rw [Bool.or_eq_true, placedBefore_iff hnodup, placedBefore_iff hnodup]
  exact Nat.le_total _ _

theorem pairwise_sortByOrder (items : List α) :
    (sortByOrder key order items).Pairwise fun a b =>
      order.idxOf (key a) ≤ order.idxOf (key b) :=
  (List.pairwise_mergeSort (placedBefore_trans hnodup) (placedBefore_total hnodup) items).imp
    (placedBefore_iff hnodup).1

/-- Items stand in the order in which their ids do. -/
theorem lt_of_idxOf_lt {p q : Nat} {a b : α} (hp : (sortByOrder key order items)[p]? = some a)
    (hq : (sortByOrder key order items)[q]? = some b)
    (h : order.idxOf (key b) < order.idxOf (key a)) : q < p := by
  by_contra hqp
  refine Nat.not_le.2 h ?_
  rcases Nat.lt_or_eq_of_le (Nat.le_of_not_lt hqp) with hlt | rfl
  · obtain ⟨hplt, rfl⟩ := List.getElem?_eq_some_iff.1 hp
    obtain ⟨hqlt, rfl⟩ := List.getElem?_eq_some_iff.1 hq
    exact List.pairwise_iff_getElem.1 (pairwise_sortByOrder hnodup items) p q hplt hqlt hlt
  · rw [Option.some.inj (hp.symm.trans hq)]

/-- Items that have one place stay in the order in which they are given. -/
theorem filter_sortByOrder {p : α → Bool} (hp : ∀ a b, p a = true → p b = true → key a = key b)
    (items : List α) : (sortByOrder key order items).filter p = items.filter p := by
  have htied : (items.filter p).Pairwise fun a b =>
      placedBefore key order (ranks order) a b = true := by
    refine List.pairwise_of_forall_mem_list fun a ha b hb => ?_
    rw [placedBefore_iff hnodup, hp a b (List.mem_filter.1 ha).2 (List.mem_filter.1 hb).2]
  have hsub := (List.sublist_mergeSort (placedBefore_trans hnodup) (placedBefore_total hnodup) htied
    List.filter_sublist).filter p
  simp only [List.filter_filter, Bool.and_self] at hsub
  exact (hsub.eq_of_length ((sortByOrder_perm key order items).filter p).length_eq.symm).symm

theorem sortByOrder_eq_flatMap (hkeys : ∀ a ∈ items, key a ∈ order) :
    sortByOrder key order items = order.flatMap fun id => items.filter (key · == id) := by
  have hmem : ∀ a ∈ sortByOrder key order items, key a ∈ order := fun a ha =>
    hkeys a ((sortByOrder_perm key order items).mem_iff.1 ha)
  rw [eq_flatMap_of_pairwise hnodup hmem (pairwise_sortByOrder hnodup items)]
  refine List.flatMap_congr fun id _ => ?_
  refine filter_sortByOrder hnodup (fun a b ha hb => ?_) items
  rw [beq_iff_eq.1 ha, beq_iff_eq.1 hb]

theorem sortByOrder_eq_of_perm (hkeys : ∀ a ∈ items, key a ∈ order)
    (hdistinct : (items.map key).Nodup) (h : items'.Perm items) :
    sortByOrder key order items' = sortByOrder key order items := by
  have hperm := (sortByOrder_perm key order items').trans h
  refine List.Perm.eq_of_pairwise (fun a b ha hb hab hba => ?_) (pairwise_sortByOrder hnodup items')
    (pairwise_sortByOrder hnodup items) (hperm.trans (sortByOrder_perm key order items).symm)
  have ha := hperm.mem_iff.1 ha
  have hb := (sortByOrder_perm key order items).mem_iff.1 hb
  refine List.inj_on_of_nodup_map hdistinct ha hb ?_
  exact (List.idxOf_inj (hkeys a ha)).1 (Nat.le_antisymm hab hba)

end

/-! ## The two outcomes -/

variable {g : PrecedenceGraph} {ss : List Statement}

theorem mem_ids_foldl_addId (hg : g.Coherent) {ids : List String} {id : String} :
    id ∈ (ids.foldl PrecedenceGraph.addId g).ids ↔ id ∈ g.ids ∨ id ∈ ids := by
  induction ids generalizing g with
  | nil => simp
  | cons a ids ih =>
    rw [List.foldl_cons, ih (g := g.addId a) (hg.place a), addId, mem_ids_place hg, or_assoc,
      List.mem_cons]

theorem arrange_eq (key : α → String) (g : PrecedenceGraph) (items : List α)
    (log : Log CircularConstraint) :
    (arrange key g items log).succeeded =
        (((items.map key).foldl PrecedenceGraph.addId g).order log).1.isSome ∧
      (arrange key g items log).items =
        match (((items.map key).foldl PrecedenceGraph.addId g).order log).1 with
        | none => items
        | some order => sortByOrder key order items := by
  unfold arrange
  split
  · next he => rw [he]; exact ⟨rfl, rfl⟩
  · next he => rw [he]; exact ⟨rfl, rfl⟩

/-- If some id must follow itself, cycles are reported and the items stay as they are.
    Otherwise they are put into the least order of the ids. -/
theorem arrange_cases (h : g.Reflects ss) (key : α → String) (items : List α)
    (log : Log CircularConstraint) :
    ((∃ id, MustFollow ss id id) ∧ ∃ c cs log', arrange key g items log =
        ⟨false, items, (items.map key).foldl PrecedenceGraph.addId g, log'⟩ ∧
      log'.toList = log.toList ++ c :: cs) ∨
    ((∀ id, ¬ MustFollow ss id id) ∧ ∃ order, arrange key g items log =
        ⟨true, sortByOrder key order items,
          ((items.map key).foldl PrecedenceGraph.addId g).close, log⟩ ∧
      (((items.map key).foldl PrecedenceGraph.addId g).order log).1 = some order ∧
      order.Nodup ∧ (∀ a ∈ items, key a ∈ order) ∧
      IsLeast {list | IsOrder ((items.map key).foldl PrecedenceGraph.addId g).ids ss list} order) := by
  have hids := h.foldl_addId (items.map key)
  rcases hids.order_cases log with
    ⟨hcycle, c, cs, log', horder, hlog⟩ | ⟨hacyclic, order, horder, hleast⟩
  · exact Or.inl ⟨hcycle, c, cs, log', by rw [arrange, horder], hlog⟩
  · refine Or.inr ⟨hacyclic, order, by rw [arrange, horder], by rw [horder], ?_, fun a ha => ?_,
      hleast⟩
    · exact hleast.1.perm.nodup_iff.2 hids.coherent.nodup_ids
    · rw [hleast.1.perm.mem_iff, mem_ids_foldl_addId h.coherent]
      exact Or.inr (List.mem_map_of_mem ha)

end

end InstallerLinker
