/-
  Installer linker — diagnostics and their annotated locations.

  * `Annotation` is a location with a severity and perhaps a label; the
    functions in the namespace of `Location` build one each, and
    `Annotation.withHelp` adds a piece of advice at the same place;
  * `Diagnostic` is the class of the types whose values report a problem: a
    one-line message, a severity, and the annotations that tell its story in
    order.
-/
import InstallerLinker.Location
import InstallerLinker.Severity

namespace InstallerLinker

/-- A remark on one location. -/
structure Annotation where
  location : Location
  severity : Severity
  /-- What is said about the location; an annotation without a label only points
      at it. -/
  label : Option String
  deriving DecidableEq, Inhabited

namespace Location

/-- Remark on a location with the given severity. -/
def annotate (l : Location) (severity : Severity) (label : Option String) : Annotation :=
  ⟨l, severity, label⟩

/-- Label a location as the place of an error. -/
def error (l : Location) (label : String) : Annotation := l.annotate .error (some label)

/-- Point at the place of an error without saying more. -/
def markError (l : Location) : Annotation := l.annotate .error none

/-- Label a location as suspicious. -/
def warning (l : Location) (label : String) : Annotation := l.annotate .warning (some label)

/-- Add a fact about a location. -/
def note (l : Location) (label : String) : Annotation := l.annotate .note (some label)

/-- Add a piece of advice at a location. -/
def help (l : Location) (label : String) : Annotation := l.annotate .help (some label)

end Location

/-- The annotation, followed by a piece of advice at the same location. -/
def Annotation.withHelp (a : Annotation) (advice : String) : List Annotation :=
  [a, a.location.help advice]

/-- A type of reportable problems. -/
class Diagnostic (δ : Type) where
  /-- The problem in one line. -/
  message : δ → String
  /-- The severity of the problem as a whole; an error unless said otherwise. -/
  severity : δ → Severity := fun _ => .error
  /-- The locations that matter for the problem, in the order of its story. -/
  annotations : δ → List Annotation

namespace Diagnostic

variable {δ : Type} [Diagnostic δ]

/-- Whether the problem makes the link fail. -/
def isFatal (d : δ) : Bool := (severity d).isFatal

end Diagnostic

end InstallerLinker
