/-
  Installer linker — things put into the order of their ids.

  * `arrange` sorts any items by the place of their ids in the order of a graph;
    items of one id stay in the order in which they are given;
  * `arrangeSearches` does so with the rows of a table of searches, each of
    which must come after its parent.

  If the constraints are circular, the items stay as they are.
-/
import InstallerLinker.PrecedenceGraph.Sorting
import InstallerLinker.Table

namespace InstallerLinker

/-! ## Items with ids -/

/-- What comes of arranging items. -/
structure Arrangement (α : Type) where
  /-- Whether there was an order. -/
  succeeded : Bool
  items : List α
  /-- The graph, to which the ids of the items have been added. -/
  graph : PrecedenceGraph
  log : Log CircularConstraint

/-- The place of each id in an order. -/
def ranks (order : List String) : Std.TreeMap String Nat :=
  order.zipIdx.foldl (fun table p => table.insert p.1 p.2) ∅

section
variable {α : Type} (key : α → String)

/-- Whether an item is placed no later than another; an item without a place
    comes last. -/
def placedBefore (order : List String) (table : Std.TreeMap String Nat) (a b : α) : Bool :=
  table.getD (key a) order.length ≤ table.getD (key b) order.length

/-- The items by the place of their ids; items of one id keep their order. -/
def sortByOrder (order : List String) (items : List α) : List α :=
  let table := ranks order
  items.mergeSort (placedBefore key order table)

/-- Put items into the order of their ids, which are added to the graph. -/
def arrange (graph : PrecedenceGraph) (items : List α) (log : Log CircularConstraint) :
    Arrangement α :=
  match ((items.map key).foldl PrecedenceGraph.addId graph).order log with
  | (none, graph, log) => ⟨false, items, graph, log⟩
  | (some order, graph, log) => ⟨true, sortByOrder key order items, graph, log⟩

end

/-! ## Searches -/

/-- The table of searches. -/
def searchTable : String := "WixSearch"

/-- The table of relations between searches: each row names a search and its
    parent, which must come before it. -/
def searchRelationTable : String := "WixSearchRelation"

/-- The id of a search. -/
def searchId (r : Row) : String := r.fieldText 0

/-- Add what a row of relations says; a row that lacks either id says nothing. -/
def addRelation (graph : PrecedenceGraph) (r : Row) : PrecedenceGraph :=
  let id := r.fieldText 0
  let parent := r.fieldText 1
  if id.isEmpty || parent.isEmpty then graph else (graph.addConstraint id parent r.location).1

/-- Put the rows of a table of searches into an order in which each search comes
    after its parent.  The Boolean tells whether there was one. -/
def arrangeSearches (searches relations : Table) (log : Log CircularConstraint) :
    Bool × Table × Log CircularConstraint :=
  let graph := relations.rows.foldl addRelation ∅
  match arrange searchId graph searches.rows log with
  | ⟨succeeded, rows, _, log⟩ => (succeeded, { searches with rows := rows }, log)

end InstallerLinker
