/-
  Installer linker — compiled sections.

  A section is the unit that the compiler hands over: a named collection of
  tables of a certain kind.  The linker never changes one and refers to it by
  its position in the list of sections.

  * `SectionKind.isEntry` holds of the kinds that a link can start from;
  * `Section.table?` finds a table by name, and `Section.updateTable?` replaces
    the one that it finds;
  * `Section.symbolTables` are the tables whose rows define symbols.
-/
import InstallerLinker.Table

namespace InstallerLinker

/-- What a section describes. -/
inductive SectionKind where
  | unknown
  | product
  | mergeModule
  | patchCreation
  | patch
  | bundle
  | fragment
  deriving DecidableEq, Inhabited

namespace SectionKind

/-- Whether a link can start from sections of this kind. -/
def isEntry : SectionKind → Bool
  | product | mergeModule | patchCreation | patch | bundle => true
  | unknown | fragment => false

/-- The kind as a message names it. -/
def text : SectionKind → String
  | unknown => "unknown"
  | product => "product"
  | mergeModule => "module"
  | patchCreation => "patch creation"
  | patch => "patch"
  | bundle => "bundle"
  | fragment => "fragment"

end SectionKind

/-- The position of a section in the list that is linked. -/
abbrev SectionIndex := Nat

/-- How a message names a section by its position. -/
def SectionIndex.text (i : SectionIndex) : String := "#" ++ toString i

/-- A compiled section. -/
structure Section where
  id : String
  kind : SectionKind
  tables : List Table
  /-- Where the section was authored. -/
  location : Location
  deriving DecidableEq

namespace Section

/-- The section with a table more, after the others. -/
def addTable (s : Section) (t : Table) : Section := { s with tables := s.tables ++ [t] }

/-- The first table of the given name. -/
def table? (s : Section) (name : String) : Option Table := s.tables.find? (·.name == name)

/-- Apply `f` to the first table of the given name; `none` if there is no such
    table. -/
def updateTables? (name : String) (f : Table → Table) : List Table → Option (List Table)
  | [] => none
  | t :: ts =>
    if t.name == name then some (f t :: ts) else (updateTables? name f ts).map (t :: ·)

/-- Apply `f` to the first table of the given name; `none` if there is no such
    table. -/
def updateTable? (s : Section) (name : String) (f : Table → Table) : Option Section :=
  (updateTables? name f s.tables).map fun ts => { s with tables := ts }

/-- The tables whose rows define symbols. -/
def symbolTables (s : Section) : List Table := s.tables.filter (·.schema.definesSymbols)

/-- There is a table to update exactly if there is one to find. -/
theorem isSome_updateTable? (s : Section) (name : String) (f : Table → Table) :
    (s.updateTable? name f).isSome = (s.table? name).isSome := by
  obtain ⟨_, _, ts, _⟩ := s
  simp only [updateTable?, table?, Option.isSome_map]
  induction ts with
  | nil => rfl
  | cons t ts ih => cases h : t.name == name <;> simp [updateTables?, h, ih]

end Section

end InstallerLinker
