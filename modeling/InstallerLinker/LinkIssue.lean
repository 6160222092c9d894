/-
  Installer linker — the problems that a link reports.

  No stage of a link fails: each reports what it finds and goes on, so that one
  link brings every problem to light.

  * `LinkIssue` lists the causes; two of them are warnings and the others
    errors;
  * the instance of `Diagnostic` holds their wording.
-/
import InstallerLinker.Diagnostic
import InstallerLinker.Section

namespace InstallerLinker

/-- A problem found while linking. -/
inductive LinkIssue where
  /-- A link can start from two sections; the first is chosen.  Each one after
      the first is reported. -/
  | ambiguousEntryPoint (first : String) (firstLocation : Location) (second : String)
      (secondLocation : Location)
  /-- A section that a link can start from is not of the kind that was asked
      for. -/
  | unexpectedEntryKind (id : String) (location : Location) (expected found : SectionKind)
  /-- A row defines a symbol again with the same values, which was allowed. -/
  | identicalDuplicateRow (name : String) (location earlier : Location)
  /-- Several linked sections define a symbol; the places follow. -/
  | conflictingDuplicateSymbol (name : String) (location : Location)
  /-- One of the places that define a symbol again. -/
  | duplicateSymbolLocation (name : String) (location : Location)
  /-- A linked section needs a symbol that no section defines. -/
  | unresolvedReference (name : String) (location : Location)
  /-- There is no section that a link can start from. -/
  | missingEntrySection (expected : SectionKind)
  deriving DecidableEq

namespace LinkIssue

/-- The wording of each problem. -/
def message : LinkIssue → String
  | ambiguousEntryPoint first _ second _ =>
    "multiple entry sections found: `" ++ first ++ "` and `" ++ second ++ "`"
  | unexpectedEntryKind id _ expected found =>
    "entry section `" ++ id ++ "` is a " ++ found.text ++ ", but " ++ expected.text ++
      " output was expected"
  | identicalDuplicateRow name _ _ => "identical rows define symbol `" ++ name ++ "`"
  | conflictingDuplicateSymbol name _ => "duplicate symbol `" ++ name ++ "`"
  | duplicateSymbolLocation name _ => "location of duplicate symbol `" ++ name ++ "`"
  | unresolvedReference name _ => "unresolved reference to symbol `" ++ name ++ "`"
  | missingEntrySection expected => "no entry section found for " ++ expected.text ++ " output"

/-- A wrong kind of entry section and a repeated row are tolerated; all else
    makes the link fail. -/
def severity : LinkIssue → Severity
  | unexpectedEntryKind .. | identicalDuplicateRow .. => .warning
  | _ => .error

/-- The places that matter for each problem. -/
def annotations : LinkIssue → List Annotation
  | ambiguousEntryPoint first firstLocation _ secondLocation =>
    [secondLocation.error "this is an additional entry section",
      firstLocation.note ("`" ++ first ++ "` was already chosen as the entry"),
      secondLocation.help "a link must have exactly one product, module, ",
      secondLocation.help "  patch, patch creation, or bundle section"]
  | unexpectedEntryKind _ location expected found =>
    (location.warning ("this " ++ found.text ++ " is the entry section")).withHelp
      ("expected a " ++ expected.text ++ " section")
  | identicalDuplicateRow _ location earlier =>
    [location.warning "this row is identical to an earlier one",
      earlier.note "first defined here"]
  | conflictingDuplicateSymbol _ location => [location.error "first defined here"]
  | duplicateSymbolLocation _ location => [location.error "redefined here"]
  | unresolvedReference _ location =>
    [location.error "referenced here", location.help "no section included in the link defines it"]
  | missingEntrySection _ => []

instance : Diagnostic LinkIssue := ⟨message, severity, annotations⟩

end LinkIssue

end InstallerLinker
