/-
  Installer linker — the order of the searches.

  A row of relations names a search and its parent, by texts in its first two columns;
  a row that lacks either of them says nothing.  A search may so descend from others
  that have no row of their own.

  * `Descends` says what follows from the rows of relations, without a graph, and
    `reflects_relations` that the graph built from them reflects it;
  * `searchGraph` is the graph by which searches are arranged, `order_searchGraph_congr`
    says what its order depends on;
  * `head?_of_isLeast` is the reason why rows without an id come first;
  * `RowsArranged` says what it is to put rows into an order that meets the relations;
  * `arrangeSearches_spec` says that this is done, unless the relations are circular,
    and what the result depends on; `arrangeSearches_circular` shows that circular
    relations must be excluded there.
-/
import Mathlib.Data.List.Permutation
import InstallerLinker.Proofs.Arrangement

namespace InstallerLinker
open Relation PrecedenceGraph

/-! ## What the relations say -/

/-- The id in column `i`: its text, if there is one and it is not empty. -/
def Row.id? (r : Row) (i : Nat) : Option String :=
  match r.fields[i]? with
  | some (.string s) => if s = "" then none else some s
  | _ => none

/-- Some row of relations says that `b` is the parent of `a`. -/
def HasParent (relations : List Row) (a b : String) : Prop :=
  ∃ r ∈ relations, r.id? 0 = some a ∧ r.id? 1 = some b

/-- By the relations, `b` is an ancestor of `a`: its parent, or a parent of an ancestor. -/
def Descends (relations : List Row) : String → String → Prop := TransGen (HasParent relations)

theorem Row.id?_eq (r : Row) (i : Nat) :
    r.id? i = if r.fieldText i = "" then none else some (r.fieldText i) := by
  unfold id? fieldText field?
  cases r.fields[i]? with
  | none => rfl
  | some f => cases f <;> rfl

/-- The constraint that a row of relations states, if it does so. -/
def relationStatement? (r : Row) : Option Statement :=
  (r.id? 0).bind fun id => (r.id? 1).map fun parent => ⟨id, parent, r.location⟩

/-- The constraints that the rows of relations state, in order. -/
def relationStatements (rows : List Row) : List Statement := rows.filterMap relationStatement?

theorem addRelation_eq (g : PrecedenceGraph) (r : Row) :
    addRelation g r =
      match relationStatement? r with
      | none => g
      | some s => (g.addConstraint s.id s.first s.location).1 := by
  rw [relationStatement?, r.id?_eq, r.id?_eq]
  unfold addRelation
  by_cases hid : r.fieldText 0 = "" <;> by_cases hparent : r.fieldText 1 = "" <;>
    simp [hid, hparent]

theorem exists_statement_iff {rows : List Row} {a b : String} :
    (∃ s ∈ relationStatements rows, s.id = a ∧ s.first = b) ↔ HasParent rows a b := by
  constructor
  · rintro ⟨s, hs, rfl, rfl⟩
    obtain ⟨r, hr, hs⟩ := List.mem_filterMap.1 hs
    obtain ⟨id, hid, hs⟩ := Option.bind_eq_some_iff.1 hs
    obtain ⟨parent, hparent, rfl⟩ := Option.map_eq_some_iff.1 hs
    exact ⟨r, hr, hid, hparent⟩
  · rintro ⟨r, hr, hid, hparent⟩
    refine ⟨⟨a, b, r.location⟩, List.mem_filterMap.2 ⟨r, hr, ?_⟩, rfl, rfl⟩
    rw [relationStatement?, hid, hparent]
    rfl

theorem mustFollow_relationStatements (rows : List Row) :
    MustFollow (relationStatements rows) = Descends rows := by
  unfold MustFollow Descends
  congr 1
  funext a b
  exact propext exists_statement_iff

theorem not_mustFollow_empty (rows : List Row) (b : String) :
    ¬ MustFollow (relationStatements rows) "" b := by
  rw [mustFollow_relationStatements]
  intro h
  obtain ⟨_, ⟨r, -, hid, -⟩, -⟩ := TransGen.head'_iff.1 h
  rw [r.id?_eq] at hid
  split at hid
  · cases hid
  · next hne => exact hne (Option.some.inj hid)

/-! ## The graph of the relations -/

theorem reflects_relations (rows : List Row) :
    (rows.foldl addRelation ∅).Reflects (relationStatements rows) := by
  induction rows using List.reverseRecOn with
  | nil => exact reflects_empty
  | append_singleton rows r ih =>
    rw [List.foldl_append, List.foldl_cons, List.foldl_nil, addRelation_eq, relationStatements,
      List.filterMap_append, ← relationStatements, List.filterMap_cons, List.filterMap_nil]
    cases relationStatement? r with
    | none => simpa using ih
    | some s => exact ih.addConstraint s.id s.first s.location

theorem mem_ids_relations {rows : List Row} {id : String} :
    id ∈ (rows.foldl addRelation ∅).ids ↔
      ∃ s ∈ relationStatements rows, id = s.id ∨ id = s.first := by
  induction rows using List.reverseRecOn with
  | nil => simp [relationStatements]
  | append_singleton rows r ih =>
    rw [List.foldl_append, List.foldl_cons, List.foldl_nil, addRelation_eq, relationStatements,
      List.filterMap_append, ← relationStatements, List.filterMap_cons, List.filterMap_nil]
    cases relationStatement? r with
    | none => simpa using ih
    | some s =>
      simp only [mem_ids_addConstraint (reflects_relations rows).coherent, ih, List.mem_append,
        List.mem_singleton, or_and_right, exists_or, exists_eq_left]

/-- The graph by which searches are arranged: it knows of all searches that have a row
    or are mentioned in a relation. -/
def searchGraph (relations searches : List Row) : PrecedenceGraph :=
  (searches.map searchId).foldl PrecedenceGraph.addId (relations.foldl addRelation ∅)

theorem mem_ids_searchGraph {relations searches : List Row} {id : String} :
    id ∈ (searchGraph relations searches).ids ↔
      (∃ s ∈ relationStatements relations, id = s.id ∨ id = s.first) ∨
        id ∈ searches.map searchId := by
  rw [searchGraph, mem_ids_foldl_addId (reflects_relations relations).coherent, mem_ids_relations]

/-- The order does not depend on how the relations and the searches are listed. -/
theorem order_searchGraph_congr {relations relations' searches searches' : List Row}
    (hrelations : ∀ a b, HasParent relations' a b ↔ HasParent relations a b)
    (hsearches : ∀ r, r ∈ searches' ↔ r ∈ searches) (log log' : Log CircularConstraint) :
    ((searchGraph relations' searches').order log').1 =
      ((searchGraph relations searches).order log).1 := by
  have hpairs : SamePairs (relationStatements relations') (relationStatements relations) := by
    intro a b
    rw [exists_statement_iff, exists_statement_iff, hrelations]
  refine ((reflects_relations relations').foldl_addId _).order_congr
    ((reflects_relations relations).foldl_addId _) (fun id => ?_) hpairs log' log
  rw [← searchGraph, ← searchGraph, mem_ids_searchGraph, mem_ids_searchGraph]
  refine or_congr ⟨hpairs.mentions, hpairs.symm.mentions⟩ ?_
  simp only [List.mem_map, hsearches]

/-! ## Rows in order -/

/-- In the least order, an id that is the least and must follow nothing comes first. -/
theorem head?_of_isLeast {ids order : List String} {ss : List Statement} {id : String}
    (h : IsLeast {list | IsOrder ids ss list} order) (hmem : id ∈ order)
    (hfree : ∀ b, ¬ MustFollow ss id b) (hleast : ∀ a, id ≤ a) : order.head? = some id := by
  have hfirst : IsOrder ids ss (id :: order.erase id) := by
    refine ⟨(List.perm_cons_erase hmem).symm.trans h.1.perm, fun a b hab => ?_⟩
    have ha : a ≠ id := fun ha => hfree b (ha ▸ hab)
    have hsub := h.1.follows a b hab
    by_cases hb : b = id
    · rw [hb, List.cons_sublist_cons, List.singleton_sublist, List.mem_erase_of_ne ha]
      exact hsub.subset (List.mem_cons_of_mem _ (List.mem_singleton_self a))
    · have := hsub.erase id
      rw [List.erase_of_not_mem (by simp [Ne.symm ha, Ne.symm hb])] at this
      exact this.cons id
  cases order with
  | nil => exact absurd hmem List.not_mem_nil
  | cons a order =>
    have hle : a :: order ≤ id :: (a :: order).erase id := h.2 hfirst
    have ha : a ≤ id := by
      by_contra hlt
      exact not_lt.2 hle (List.Lex.rel (not_le.1 hlt))
    rw [List.head?_cons, le_antisymm ha (hleast a)]

theorem empty_le (a : String) : "" ≤ a := by
  rw [String.le_iff_toList_le]
  exact not_lt.1 (List.not_lt_nil _)

/-- The rows `new` are the rows `old` put into an order that meets the relations. -/
structure RowsArranged (relations old new : List Row) : Prop where
  perm : new.Perm old
  /-- A row comes after all rows of the searches that its own descends from. -/
  follows : ∀ (p q : Nat) (r s : Row) (a b : String), new[p]? = some r → new[q]? = some s →
    r.id? 0 = some a → s.id? 0 = some b → Descends relations a b → q < p
  /-- Rows without an id come first, as they stood. -/
  unnamed : ∃ named, new = old.filter (·.id? 0 = none) ++ named ∧ ∀ r ∈ named, r.id? 0 ≠ none
  /-- Rows of one id stay in the order in which they stood. -/
  stable : ∀ id, new.filter (·.id? 0 = some id) = old.filter (·.id? 0 = some id)

theorem id?_eq_none_iff {r : Row} : r.id? 0 = none ↔ searchId r = "" := by
  rw [r.id?_eq, searchId]
  split <;> simp_all

theorem searchId_eq_of_id? {r : Row} {id : String} (h : r.id? 0 = some id) : searchId r = id := by
  rw [r.id?_eq] at h
  split at h
  · cases h
  · exact Option.some.inj h

theorem searchId_eq_of_same_id? {r s : Row} (h : r.id? 0 = s.id? 0) : searchId r = searchId s := by
  cases hs : s.id? 0 with
  | none => rw [id?_eq_none_iff.1 (h.trans hs), id?_eq_none_iff.1 hs]
  | some id => rw [searchId_eq_of_id? (h.trans hs), searchId_eq_of_id? hs]

/-- Rows sorted by the least order of their ids stand in an order that meets the
    relations. -/
theorem rowsArranged_sortByOrder {relations rows : List Row} {ids order : List String}
    (hnodup : order.Nodup) (hkeys : ∀ r ∈ rows, searchId r ∈ order)
    (hleast : IsLeast {list | IsOrder ids (relationStatements relations) list} order) :
    RowsArranged relations rows (sortByOrder searchId order rows) := by
  have hperm := sortByOrder_perm searchId order rows
  have hfilter : ∀ id? : Option String, (sortByOrder searchId order rows).filter (·.id? 0 = id?) =
      rows.filter (·.id? 0 = id?) := by
    intro id?
    refine filter_sortByOrder hnodup (fun r s hr hs => ?_) rows
    exact searchId_eq_of_same_id? ((of_decide_eq_true hr).trans (of_decide_eq_true hs).symm)
  refine ⟨hperm, ?_, ?_, fun id => hfilter (some id)⟩
  · intro p q r s a b hp hq ha hb hab
    refine lt_of_idxOf_lt hnodup hp hq ?_
    rw [searchId_eq_of_id? ha, searchId_eq_of_id? hb]
    rw [← mustFollow_relationStatements] at hab
    exact idxOf_lt_of_sublist hnodup (hleast.1.follows a b hab)
  · by_cases hmem : "" ∈ order
    · obtain ⟨rest, rfl⟩ := List.head?_eq_some_iff.1
        (head?_of_isLeast hleast hmem (not_mustFollow_empty relations) empty_le)
      refine ⟨rest.flatMap fun id => rows.filter (searchId · == id), ?_, fun r hr hnone => ?_⟩
      · rw [sortByOrder_eq_flatMap hnodup hkeys, List.flatMap_cons]
        congr 1
        refine List.filter_congr fun r _ => ?_
        rw [Bool.eq_iff_iff, beq_iff_eq, decide_eq_true_eq, id?_eq_none_iff]
      · obtain ⟨id, hid, hr⟩ := List.mem_flatMap.1 hr
        have hr : searchId r = id := beq_iff_eq.1 (List.mem_filter.1 hr).2
        exact (List.nodup_cons.1 hnodup).1 (id?_eq_none_iff.1 hnone ▸ hr ▸ hid)
    · have hnamed : ∀ r ∈ rows, r.id? 0 ≠ none := fun r hr hnone =>
        hmem (id?_eq_none_iff.1 hnone ▸ hkeys r hr)
      refine ⟨sortByOrder searchId order rows, ?_, fun r hr => hnamed r (hperm.mem_iff.1 hr)⟩
      rw [List.filter_eq_nil_iff.2 (by simpa using hnamed), List.nil_append]

/-! ## Searches in order -/

/-- The result in terms of the order of the graph. -/
theorem arrangeSearches_eq (searches relations : Table) (log : Log CircularConstraint) :
    (arrangeSearches searches relations log).1 =
        ((searchGraph relations.rows searches.rows).order log).1.isSome ∧
      (arrangeSearches searches relations log).2.1 = { searches with rows :=
        match ((searchGraph relations.rows searches.rows).order log).1 with
        | none => searches.rows
        | some order => sortByOrder searchId order searches.rows } := by
  obtain ⟨hsucceeded, hitems⟩ :=
    arrange_eq searchId (relations.rows.foldl addRelation ∅) searches.rows log
  exact ⟨hsucceeded, congrArg (Table.mk searches.schema) hitems⟩

/-- Of the relations, it only matters which search is said to be the parent of which. -/
theorem arrangeSearches_congr {searches relations relations' : Table}
    (h : ∀ a b, HasParent relations'.rows a b ↔ HasParent relations.rows a b)
    (log log' : Log CircularConstraint) :
    (arrangeSearches searches relations' log').1 = (arrangeSearches searches relations log).1 ∧
      (arrangeSearches searches relations' log').2.1 =
        (arrangeSearches searches relations log).2.1 := by
  obtain ⟨hsucceeded, htable⟩ := arrangeSearches_eq searches relations log
  obtain ⟨hsucceeded', htable'⟩ := arrangeSearches_eq searches relations' log'
  rw [order_searchGraph_congr h (fun _ => Iff.rfl) log log'] at hsucceeded' htable'
  exact ⟨hsucceeded'.trans hsucceeded.symm, htable'.trans htable.symm⟩

theorem nodup_searchId {rows : List Row} (h : (rows.map (·.id? 0)).Nodup) :
    (rows.map searchId).Nodup := by
  have hmap : rows.map (·.id? 0) =
      (rows.map searchId).map fun id => if id = "" then none else some id := by
    rw [List.map_map]
    exact List.map_congr_left fun r _ => r.id?_eq 0
  exact List.Nodup.of_map _ (hmap ▸ h)

/-- Where there is an order, rows of different ids may be given in any order. -/
theorem arrangeSearches_perm {searches relations : Table}
    (hacyclic : ∀ id, ¬ Descends relations.rows id id)
    (hdistinct : (searches.rows.map (·.id? 0)).Nodup) {rows : List Row}
    (hperm : rows.Perm searches.rows) (log log' : Log CircularConstraint) :
    (arrangeSearches { searches with rows := rows } relations log').2.1 =
      (arrangeSearches searches relations log).2.1 := by
  rw [← mustFollow_relationStatements] at hacyclic
  rcases arrange_cases (reflects_relations relations.rows) searchId searches.rows log with
    ⟨⟨id, hid⟩, -⟩ | ⟨-, order, -, horder, hnodup, hkeys, -⟩
  · exact absurd hid (hacyclic id)
  rw [← searchGraph] at horder
  have horder' : ((searchGraph relations.rows rows).order log').1 = some order :=
    (order_searchGraph_congr (fun _ _ => Iff.rfl) (fun _ => hperm.mem_iff) log log').trans horder
  rw [(arrangeSearches_eq _ _ log').2, (arrangeSearches_eq _ _ log).2, horder, horder']
  simp only [sortByOrder_eq_of_perm hnodup hkeys (nodup_searchId hdistinct) hperm]

/-- The two outcomes, by what the relations say. -/
theorem arrangeSearches_cases (searches relations : Table) (log : Log CircularConstraint) :
    ((∀ id, ¬ Descends relations.rows id id) ∧ ∃ rows,
      arrangeSearches searches relations log = (true, { searches with rows := rows }, log) ∧
        RowsArranged relations.rows searches.rows rows) ∨
    ((∃ id, Descends relations.rows id id) ∧ ∃ c cs log',
      arrangeSearches searches relations log = (false, searches, log') ∧
        log'.toList = log.toList ++ c :: cs) := by
  rw [← mustFollow_relationStatements]
  rcases arrange_cases (reflects_relations relations.rows) searchId searches.rows log with
    ⟨hcycle, c, cs, log', harrange, hlog⟩ | ⟨hacyclic, order, harrange, -, hnodup, hkeys, hleast⟩
  · exact Or.inr ⟨hcycle, c, cs, log', by rw [arrangeSearches, harrange], hlog⟩
  · exact Or.inl ⟨hacyclic, _, by rw [arrangeSearches, harrange],
      rowsArranged_sortByOrder hnodup hkeys hleast⟩

/-- **The order of the searches.**  There is one if and only if the relations are not
    circular.  Then each row comes after those of all ancestors of its search, rows
    without an id come first, and rows of one id stay in order; otherwise cycles are
    reported and the table stays as it is.  Relations may be given in any order and more
    than once.  So may, in any order, rows of different searches, provided that there is
    an order. -/
theorem arrangeSearches_spec (searches relations : Table) (log : Log CircularConstraint) :
    ((arrangeSearches searches relations log).1 = true ↔
      ∀ id, ¬ Descends relations.rows id id) ∧
    (match arrangeSearches searches relations log with
      | (true, table, log') =>
        (∃ rows, table = { searches with rows := rows } ∧
          RowsArranged relations.rows searches.rows rows) ∧ log' = log
      | (false, table, log') => table = searches ∧ ∃ c cs, log'.toList = log.toList ++ c :: cs) ∧
    (∀ (relations' : Table) (log' : Log CircularConstraint),
      (∀ a b, HasParent relations'.rows a b ↔ HasParent relations.rows a b) →
      (arrangeSearches searches relations' log').1 = (arrangeSearches searches relations log).1 ∧
        (arrangeSearches searches relations' log').2.1 =
          (arrangeSearches searches relations log).2.1) ∧
    ∀ (rows : List Row) (log' : Log CircularConstraint), rows.Perm searches.rows →
      (searches.rows.map (·.id? 0)).Nodup → (∀ id, ¬ Descends relations.rows id id) →
      (arrangeSearches { searches with rows := rows } relations log').2.1 =
        (arrangeSearches searches relations log).2.1 := by
  refine ⟨?_, ?_, fun relations' log' h => arrangeSearches_congr h log log',
    fun rows log' hperm hdistinct hacyclic =>
      arrangeSearches_perm hacyclic hdistinct hperm log log'⟩
  · rcases arrangeSearches_cases searches relations log with
      ⟨hacyclic, rows, heq, -⟩ | ⟨⟨id, hid⟩, c, cs, log', heq, -⟩
    · rw [heq]
      exact ⟨fun _ => hacyclic, fun _ => rfl⟩
    · rw [heq]
      exact ⟨nofun, fun hacyclic => absurd hid (hacyclic id)⟩
  · rcases arrangeSearches_cases searches relations log with
      ⟨-, rows, heq, harranged⟩ | ⟨-, c, cs, log', heq, hlog⟩
    · rw [heq]
      exact ⟨⟨rows, rfl, harranged⟩, rfl⟩
    · rw [heq]
      exact ⟨rfl, c, cs, hlog⟩

/-- A table of searches, or of relations, with texts in its columns. -/
def textTable (name : String) (rows : List (List String)) : Table :=
  ⟨⟨name, [], false⟩, rows.map fun texts => ⟨texts.map .string, .unknown⟩⟩

/-- A search with an ancestor, a search without relations, and a row without an id. -/
def familySearches : Table := textTable searchTable [["a"], ["c"], [], ["d"]]

/-- The parent of `a` has no row of its own; nothing is said of `d`. -/
def familyRelations : Table :=
  textTable searchRelationTable [["a", "b"], ["b", "c"], ["d", ""]]

/-- The same relations, in another order and one of them twice. -/
def familyRelationsAgain : Table :=
  textTable searchRelationTable [["b", "c"], ["d"], ["a", "b"], ["b", "c"]]

theorem hasParent_familyRelationsAgain (a b : String) :
    HasParent familyRelationsAgain.rows a b ↔ HasParent familyRelations.rows a b := by
  have hd : ∀ text, (Row.mk [.string "d", .string ""] .unknown).id? 1 ≠ some text := nofun
  have hd' : ∀ text, (Row.mk [.string "d"] .unknown).id? 1 ≠ some text := nofun
  simp only [HasParent, familyRelationsAgain, familyRelations, textTable, List.map_cons,
    List.map_nil, List.mem_cons, List.not_mem_nil, or_false, exists_eq_or_imp, exists_eq_left, hd,
    hd', and_false]
  tauto

theorem arrangeSearches_family :
    (∀ id, ¬ Descends familyRelations.rows id id) ∧
      (familySearches.rows.map (·.id? 0)).Nodup ∧
      (arrangeSearches familySearches familyRelations ∅).2.1 =
        textTable searchTable [[], ["c"], ["a"], ["d"]] ∧
      (arrangeSearches familySearches familyRelationsAgain ∅).2.1 =
        textTable searchTable [[], ["c"], ["a"], ["d"]] ∧
      (arrangeSearches { familySearches with rows := familySearches.rows.reverse } familyRelations
        ∅).2.1 = textTable searchTable [[], ["c"], ["a"], ["d"]] := by
  obtain ⟨hiff, -, hrelations, hsearches⟩ := arrangeSearches_spec familySearches familyRelations ∅
  obtain ⟨hsucceeded, htable⟩ := arrangeSearches_eq familySearches familyRelations ∅
  have hgraph : searchGraph familyRelations.rows familySearches.rows =
      run [.addConstraint "a" "b" .unknown, .addConstraint "b" "c" .unknown, .addId "a", .addId "c",
        .addId "", .addId "d"] := rfl
  have horder : ((searchGraph familyRelations.rows familySearches.rows).order ∅).1 =
      some ["", "c", "b", "a", "d"] := by
    rw [hgraph]
    cbv
  have hrows : sortByOrder searchId ["", "c", "b", "a", "d"] familySearches.rows =
      (textTable searchTable [[], ["c"], ["a"], ["d"]]).rows := by cbv
  rw [horder] at hsucceeded htable
  replace htable := htable.trans (congrArg (Table.mk familySearches.schema) hrows)
  have hdistinct : (familySearches.rows.map (·.id? 0)).Nodup := by decide
  refine ⟨hiff.1 hsucceeded, hdistinct, htable, ?_, ?_⟩
  · rw [(hrelations familyRelationsAgain ∅ hasParent_familyRelationsAgain).2]
    exact htable
  · rw [hsearches _ ∅ (List.reverse_perm _) hdistinct (hiff.1 hsucceeded)]
    exact htable

/-- Two searches, each said to be the parent of the other. -/
def circularRelations : Table := textTable searchRelationTable [["a", "b"], ["b", "a"]]

theorem arrangeSearches_circularRelations (searches : Table) (log : Log CircularConstraint) :
    (arrangeSearches searches circularRelations log).2.1 = searches := by
  have hcycle : Descends circularRelations.rows "a" "a" :=
    .tail (.single ⟨_, List.mem_cons_self .., rfl, rfl⟩)
      ⟨_, List.mem_cons_of_mem _ (List.mem_singleton_self _), rfl, rfl⟩
  rcases arrangeSearches_cases searches circularRelations log with
    ⟨hacyclic, -⟩ | ⟨-, c, cs, log', heq, -⟩
  · exact absurd hcycle (hacyclic "a")
  · rw [heq]

/-- Where the relations are circular, different searches stay as they are given. -/
theorem arrangeSearches_circular :
    (textTable searchTable [["b"], ["a"]]).rows.Perm (textTable searchTable [["a"], ["b"]]).rows ∧
      ((textTable searchTable [["a"], ["b"]]).rows.map (·.id? 0)).Nodup ∧
      (arrangeSearches (textTable searchTable [["b"], ["a"]]) circularRelations ∅).2.1 ≠
        (arrangeSearches (textTable searchTable [["a"], ["b"]]) circularRelations ∅).2.1 := by
  rw [arrangeSearches_circularRelations, arrangeSearches_circularRelations]
  exact ⟨List.Perm.swap _ _ _, by decide, by decide⟩

end InstallerLinker
