/-
  Installer linker — circular constraints.

  Ids that must come after themselves have no order.  For each id the graph is
  searched along the constraints, into each id as soon as a constraint leads to
  it and into no id twice; if the search comes back to where it began, the ids
  on its stack form a cycle.

  * `PrecedenceGraph.findCycle` is that search; a cycle is the list of its
    positions, beginning with the one that the search began with;
  * `canonicalRotation` turns a cycle so that its smallest position comes first,
    by which a cycle that was found before is recognised;
  * `PrecedenceGraph.reportCycles` reports each cycle once, at the location of
    its first constraint.
-/
import InstallerLinker.Diagnostic.Log
import InstallerLinker.IndexSet
import InstallerLinker.PrecedenceGraph.Basic

namespace InstallerLinker

/-! ## The report -/

/-- Stands between the ids of a cycle in a message. -/
def cycleSeparator : String := " -> "

/-- Constraints by which an id must come after itself. -/
structure CircularConstraint where
  /-- The ids of the cycle, each constrained to come after the next; the last is
      the first again. -/
  chain : List String
  /-- Where the first constraint of the chain was authored. -/
  location : Location
  deriving DecidableEq

namespace CircularConstraint

/-- The chain in one line. -/
def message (c : CircularConstraint) : String :=
  "circular constraint: " ++ cycleSeparator.intercalate c.chain

/-- The place of the first constraint, and what to do about the cycle. -/
def annotations (c : CircularConstraint) : List Annotation :=
  (c.location.error ("`" ++ c.chain.headD "" ++ "` is required to follow itself")).withHelp
    "remove one of the constraints in this chain"

instance : Diagnostic CircularConstraint where
  message := message
  annotations := annotations

end CircularConstraint

/-! ## The search -/

/-- An id that a search has entered and not left, with the constraints that it
    has still to follow. -/
structure PathFrame where
  position : Nat
  targets : List Nat
  deriving DecidableEq

/-- The positions on a stack, the bottom first. -/
def pathOf (stack : List PathFrame) : List Nat := (stack.map (·.position)).reverse

namespace PrecedenceGraph

variable (g : PrecedenceGraph)

/-- What remains to be followed of the ids on a stack. -/
def pathWeight : List PathFrame → Nat
  | [] => 0
  | f :: stack => f.targets.length + 1 + pathWeight stack

@[simp] theorem pathWeight_cons (f : PathFrame) (stack : List PathFrame) :
    pathWeight (f :: stack) = f.targets.length + 1 + pathWeight stack := rfl

/-- Go on with a search for `start`: the stack when a constraint leads back to
    it, or `none` when there is nothing left to follow. -/
def searchCycle (start : Nat) (seen : IndexSet) (stack : List PathFrame) : Option (List Nat) :=
  match stack with
  | [] => none
  | ⟨_, []⟩ :: below => searchCycle start seen below
  | ⟨i, j :: js⟩ :: below =>
    if j = start then some (pathOf (⟨i, js⟩ :: below))
    else if seen.isFree j then
      searchCycle start (seen.insert j) (⟨j, g.targetsAt j⟩ :: ⟨i, js⟩ :: below)
    else searchCycle start seen (⟨i, js⟩ :: below)
termination_by seen.pending g.weight + pathWeight stack
decreasing_by
  · simp
  · rename_i hfree
    have := seen.pending_insert g.weight hfree
    simp only [weight] at this
    simp only [pathWeight_cons, List.length_cons]
    omega
  · simp

/-- A cycle through the given position, which comes first in it. -/
def findCycle (start : Nat) : Option (List Nat) :=
  g.searchCycle start ((IndexSet.empty g.size).insert start) [⟨start, g.targetsAt start⟩]

end PrecedenceGraph

/-! ## Reporting each cycle once -/

/-- The cycle turned so that its smallest position comes first. -/
def canonicalRotation (cycle : List Nat) : List Nat :=
  match cycle.min? with
  | none => []
  | some m => cycle.dropWhile (· != m) ++ cycle.takeWhile (· != m)

namespace PrecedenceGraph

variable (g : PrecedenceGraph)

/-- Where the constraint between two positions was authored. -/
def constraintLocation (i j : Nat) : Location :=
  ((g.constraint? i j).bind (·.location)).getD .unknown

/-- The report on a cycle that begins with `start`. -/
def circularConstraint (start : Nat) (cycle : List Nat) : CircularConstraint where
  chain := (cycle ++ [start]).map g.idAt
  location := g.constraintLocation start (cycle[1]?.getD start)

/-- Report the cycle through `start`, if there is one and it is not among the
    cycles found so far. -/
def reportCycle (found : List (List Nat)) (log : Log CircularConstraint) (start : Nat) :
    List (List Nat) × Log CircularConstraint :=
  match g.findCycle start with
  | none => (found, log)
  | some cycle =>
    let rotation := canonicalRotation cycle
    if found.contains rotation then (found, log)
    else (rotation :: found, log.push (g.circularConstraint start cycle))

/-- Report each cycle that is found from some id, once; the number counts the
    reported cycles. -/
def reportCycles (log : Log CircularConstraint) : Nat × Log CircularConstraint :=
  match (List.range g.size).foldl (fun p start => g.reportCycle p.1 p.2 start) ([], log) with
  | (found, log) => (found.length, log)

end PrecedenceGraph

end InstallerLinker
