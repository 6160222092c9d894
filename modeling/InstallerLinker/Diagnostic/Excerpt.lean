/-
  Installer linker — the printed report of a diagnostic.

  A report is a heading with the severity and the message, followed by one
  excerpt per place of the story.

  * `Excerpt` is a location with what is said about it; an annotation without a
    label contributes an excerpt that says nothing;
  * `excerpts` takes the annotations one by one and joins each to the last
    excerpt if that has the same location, so neighbours at one place share an
    excerpt, and a story that comes back to a place opens a new one;
  * `Diagnostic.report` is the text.
-/
import InstallerLinker.Diagnostic

namespace InstallerLinker

/-- A location in a report, with the remarks printed under it. -/
structure Excerpt where
  location : Location
  remarks : List (Severity × String)
  deriving DecidableEq

/-- What an annotation says: nothing without a label. -/
def Annotation.remarks (a : Annotation) : List (Severity × String) :=
  match a.label with
  | none => []
  | some label => [(a.severity, label)]

namespace Excerpt

/-- The excerpt of a single annotation. -/
def single (a : Annotation) : Excerpt := ⟨a.location, a.remarks⟩

/-- Say one thing more at the end of an excerpt. -/
def append (e : Excerpt) (a : Annotation) : Excerpt := { e with remarks := e.remarks ++ a.remarks }

/-- One printed remark. -/
def remarkText (r : Severity × String) : String := "      " ++ r.1.text ++ ": " ++ r.2 ++ "\n"

/-- The line of the location, followed by one line for each remark. -/
def text (e : Excerpt) : String :=
  "  --> " ++ e.location.text ++ "\n" ++ String.join (e.remarks.map remarkText)

end Excerpt

/-- Join an annotation to the last excerpt if that is about the same location;
    otherwise open a new one. -/
def addAnnotation (es : Array Excerpt) (a : Annotation) : Array Excerpt :=
  match es.back? with
  | none => es.push (.single a)
  | some e =>
    if e.location = a.location then es.pop.push (e.append a) else es.push (.single a)

/-- The excerpts of a list of annotations. -/
def excerpts (as : List Annotation) : Array Excerpt := as.foldl addAnnotation #[]

namespace Diagnostic

variable {δ : Type} [Diagnostic δ]

/-- The first line of a report. -/
def heading (d : δ) : String := (severity d).text ++ ": " ++ message d ++ "\n"

/-- The report of a diagnostic: its heading and its excerpts. -/
def report (d : δ) : String :=
  heading d ++ String.join ((excerpts (annotations d)).toList.map Excerpt.text)

end Diagnostic

end InstallerLinker
