/-
  Installer linker — symbols that several linked sections define.

  The survey keeps every duplicate, for whether it matters depends on which
  sections are linked.  A symbol collides if its owner and at least one of its
  duplicates are in sections that were reached, unless the table of the owner is
  exempt.

  * `Symbol.reachedDuplicates` are the duplicates that matter;
  * `reportCollisions` reports each collision as one message at the owner and
    one at each duplicate that matters, and counts them.
-/
import InstallerLinker.Diagnostic.Log
import InstallerLinker.Reach

namespace InstallerLinker

/-- The duplicates of a symbol in sections that were reached. -/
def Symbol.reachedDuplicates (s : Symbol) (reach : Reach) : List Definition :=
  s.duplicates.toList.filter fun d => reach.includes d.sectionIndex

/-- Whether a symbol is of no concern: its table is exempt, or its owner was not
    reached. -/
def Symbol.isExcused (s : Symbol) (reach : Reach) (roles : TableRoles) : Bool :=
  roles.isConflictExempt s.owner.table.name || !reach.includes s.owner.sectionIndex

/-- The message at the place of a duplicate. -/
def Definition.duplicateIssue (d : Definition) : LinkIssue :=
  .duplicateSymbolLocation d.name d.location

/-- Report a symbol if it collides; the number counts the reported ones. -/
def reportCollision (reach : Reach) (roles : TableRoles) (count : Nat) (log : Log LinkIssue)
    (s : Symbol) : Nat × Log LinkIssue :=
  if s.isExcused reach roles then (count, log)
  else
    match s.reachedDuplicates reach with
    | [] => (count, log)
    | d :: ds =>
      (count + 1,
        (log.push (.conflictingDuplicateSymbol s.name s.owner.location)).extend
          ((d :: ds).map Definition.duplicateIssue))

/-- Report the symbols that collide, in the order in which they were found to
    have duplicates.  The number counts the reported symbols. -/
def reportCollisions (symbols : SymbolTable) (reach : Reach) (roles : TableRoles)
    (log : Log LinkIssue) : Nat × Log LinkIssue :=
  symbols.contestedSymbols.foldl (fun p s => reportCollision reach roles p.1 p.2 s) (0, log)

end InstallerLinker
