/-
  Installer linker — the constraints that follow from others.

  * `PrecedenceGraph.reachable` lists the ids that an id must come after,
    directly or by a chain of constraints, in the order in which a search along
    the constraints meets them;
  * `PrecedenceGraph.close` adds a constraint from each id to every id of that
    list that it lacks.  Ids on a cycle are left as they are.
-/
import InstallerLinker.PrecedenceGraph.Cycle

namespace InstallerLinker.PrecedenceGraph

variable (g : PrecedenceGraph)

/-- Go on with a search: visit the pending positions and all that they lead to,
    each before the positions that were pending before it was met. -/
def searchFrom (seen : IndexSet) (pending : List Nat) : IndexSet :=
  match pending with
  | [] => seen
  | i :: rest =>
    if seen.isFree i then searchFrom (seen.insert i) (g.targetsAt i ++ rest)
    else searchFrom seen rest
termination_by seen.pending g.weight + pending.length
decreasing_by
  · rename_i hfree
    have := seen.pending_insert g.weight hfree
    simp only [weight] at this
    simp only [List.length_append, List.length_cons]
    omega
  · simp

/-- The positions that the given one leads to, in the order in which a search
    meets them; it is not among them itself. -/
def reachable (i : Nat) : List Nat :=
  (g.searchFrom (.empty g.size) [i]).toList.filter (· != i)

/-- The positions that the given one must come after without a constraint that
    says so. -/
def impliedTargets (i : Nat) : List Nat :=
  (g.reachable i).filter fun j => !(g.targetsAt i).contains j

/-- Add the constraints that follow for one position, unless it is on a cycle. -/
def closeAt (i : Nat) : PrecedenceGraph :=
  if (g.findCycle i).isSome then g else g.implyAt i (g.impliedTargets i)

/-- Add the constraints that follow for all positions, in order. -/
def close : PrecedenceGraph := (List.range g.size).foldl closeAt g

end InstallerLinker.PrecedenceGraph
