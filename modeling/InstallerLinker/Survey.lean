/-
  Installer linker — the survey of the sections that are to be linked.

  One pass over the sections finds the one that the link starts from and
  collects the symbols.  The order of the sections decides twice: the first
  section of an entry kind is the entry, and the first row of a name owns its
  symbol.

  * `Survey` is what the pass finds out, and `survey` the pass; nothing that it
    reports cuts it short;
  * `Survey.Progress` is its state between two sections, and
    `Survey.Progress.readSection` its step.
-/
import InstallerLinker.Diagnostic.Log
import InstallerLinker.SymbolTable

namespace InstallerLinker

/-- The start of a link and the symbols of all sections. -/
structure Survey where
  /-- The first section that the link can start from. -/
  entry : Option SectionIndex
  symbols : SymbolTable

instance : Inhabited Survey := ⟨⟨none, ∅⟩⟩

/-- What is known of the sections read so far. -/
structure Survey.Progress where
  entry : Option SectionIndex
  symbols : SymbolTable
  log : Log LinkIssue

namespace Survey.Progress

/-- Take note of the section at position `i` as a possible start of the link,
    where output of the kind `expected` is wanted. -/
def noteEntry (sections : Array Section) (expected : SectionKind) (p : Progress)
    (i : SectionIndex) (s : Section) : Progress :=
  if s.kind.isEntry then
    match p with
    | ⟨entry, symbols, log⟩ =>
      let log :=
        if expected ≠ .unknown ∧ expected ≠ s.kind then
          log.push (.unexpectedEntryKind s.id s.location expected s.kind)
        else log
      match entry.bind (sections[·]?) with
      | none => ⟨some i, symbols, log⟩
      | some first =>
        ⟨entry, symbols, log.push (.ambiguousEntryPoint first.id first.location s.id s.location)⟩
  else p

/-- Add a definition to the symbols and report what there is to report. -/
def define (allowIdentical : Bool) (p : Progress) (d : Definition) : Progress :=
  match p with
  | ⟨entry, symbols, log⟩ =>
    match symbols.define allowIdentical d with
    | (symbols, none) => ⟨entry, symbols, log⟩
    | (symbols, some issue) => ⟨entry, symbols, log.push issue⟩

/-- Read the section at position `i`. -/
def readSection (sections : Array Section) (allowIdentical : Bool) (expected : SectionKind)
    (p : Progress) (i : SectionIndex) (s : Section) : Progress :=
  (s.definitions i).foldl (define allowIdentical) (p.noteEntry sections expected i s)

/-- Read all sections in order, starting with the given log. -/
def readAll (sections : Array Section) (allowIdentical : Bool) (expected : SectionKind)
    (log : Log LinkIssue) : Progress :=
  sections.toList.zipIdx.foldl
    (fun p s => p.readSection sections allowIdentical expected s.2 s.1) ⟨none, ∅, log⟩

end Survey.Progress

/-- Find the start of the link among the sections and collect their symbols.
    Reported are sections of a kind other than `expected` (unless that is
    unknown), further possible starts, and rows that are identical where that is
    allowed. -/
def survey (sections : Array Section) (allowIdentical : Bool) (expected : SectionKind)
    (log : Log LinkIssue) : Survey × Log LinkIssue :=
  match Survey.Progress.readAll sections allowIdentical expected log with
  | ⟨entry, symbols, log⟩ => (⟨entry, symbols⟩, log)

end InstallerLinker
