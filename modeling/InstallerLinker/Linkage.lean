/-
  Installer linker — the link as a whole.

  A link surveys the sections, finds out what the entry reaches, and reports the
  references that lead nowhere and the symbols that collide.  Only where there
  is no entry does it have no result; otherwise its caller decides by the log
  whether the result is of use.

  * `LinkSettings` are the choices of the caller;
  * `Linkage` is the result and `link` the function.
-/
import InstallerLinker.Collision
import InstallerLinker.Survey

namespace InstallerLinker

/-- The choices that govern a link. -/
structure LinkSettings where
  /-- Whether a row may define a symbol again with the same values. -/
  allowIdenticalRows : Bool := false
  /-- The kind of output that is wanted; any will do if it is unknown. -/
  expectedKind : SectionKind := .unknown
  /-- Whether a merge module is built; if this is left open, the kind of the
      entry decides. -/
  mergeModule : Option Bool := none
  roles : TableRoles := .standard
  deriving DecidableEq, Inhabited

/-- The result of a link. -/
structure Linkage where
  /-- The sections that were given. -/
  sections : Array Section
  entry : SectionIndex
  /-- The symbols of all sections, reached or not. -/
  symbols : SymbolTable
  /-- What the entry reaches. -/
  reach : Reach

namespace Linkage

variable (l : Linkage)

/-- The section that the link starts from. -/
def entrySection : Option Section := l.sections[l.entry]?

/-- The sections reached, in the order in which they were first visited. -/
def reachedSections : List Section := l.reach.sections.toList.filterMap (l.sections[·]?)

/-- Whether a section was reached. -/
def includes (i : SectionIndex) : Bool := l.reach.includes i

/-- The symbols referred to, in the order in which that first happened. -/
def referencedSymbols : List Symbol := l.reach.symbols.toList.filterMap l.symbols.get?

end Linkage

/-- The message about a reference that leads nowhere. -/
def DanglingReference.issue (d : DanglingReference) : LinkIssue :=
  .unresolvedReference d.reference.targetName d.reference.location

/-- Whether the link builds a merge module, where `entry` starts it: as the
    settings say, or else as the kind of the entry says. -/
def LinkSettings.buildsMergeModule (settings : LinkSettings) (sections : Array Section)
    (entry : SectionIndex) : Bool :=
  settings.mergeModule.getD <|
    match sections[entry]? with
    | none => false
    | some s => s.kind == .mergeModule

/-- What a link searches, once its entry is known. -/
def LinkSettings.scope (settings : LinkSettings) (sections : Array Section)
    (symbols : SymbolTable) (entry : SectionIndex) : Scope where
  sections := sections
  symbols := symbols
  roles := settings.roles
  mergeModule := settings.buildsMergeModule sections entry

/-- Link the sections and report all problems; there is no result if no section
    can be the entry. -/
def link (settings : LinkSettings) (sections : Array Section) (log : Log LinkIssue) :
    Option Linkage × Log LinkIssue :=
  match survey sections settings.allowIdenticalRows settings.expectedKind log with
  | (⟨none, _⟩, log) => (none, log.push (.missingEntrySection settings.expectedKind))
  | (⟨some entry, symbols⟩, log) =>
    let reach := (settings.scope sections symbols entry).reachFrom entry
    let log := log.extend (reach.dangling.toList.map DanglingReference.issue)
    let log := (reportCollisions symbols reach settings.roles log).2
    (some ⟨sections, entry, symbols, reach⟩, log)

end InstallerLinker
