/-
  Installer linker — the references between sections.

  A row of a cross-reference table says that its section needs a symbol: the
  first field names the table, the second gives the primary key.  Such rows are
  only followed; they define nothing.

  * `Reference.targetName` is the name of the symbol in question, formed as
    `TableSchema.symbolName` forms it;
  * `Section.references` lists the references of a section in table and row
    order;
  * `ReferenceCursor` reads the same list piece by piece: a cursor can be set
    aside while other sections are read and goes on where it stopped.
    `ReferenceCursor.toList` is what it has still to read, and
    `toList_of_next?_eq_some` and `toList_of_next?_eq_none` say that `next?`
    takes its head.
-/
import InstallerLinker.Section
import InstallerLinker.TableRoles

namespace InstallerLinker

/-- The statement that a section needs a symbol. -/
structure Reference where
  /-- The table in which the symbol is defined. -/
  table : String
  /-- The primary key of the defining row, as it appears in the symbol's name. -/
  keys : String
  /-- Where the reference was authored. -/
  location : Location
  deriving DecidableEq

namespace Reference

/-- The reference that a row of a cross-reference table stands for. -/
def ofRow (r : Row) : Reference := ⟨r.fieldText 0, r.fieldText 1, r.location⟩

/-- The name of the symbol that is needed. -/
def targetName (r : Reference) : String := r.table ++ tableSeparator ++ r.keys

end Reference

/-- The rows of the cross-reference tables among `tables`, in order. -/
def crossReferenceRows (roles : TableRoles) (tables : List Table) : List Row :=
  (tables.filter fun t => roles.isCrossReference t.name).flatMap Table.rows

/-- The references of a section, in table and row order. -/
def Section.references (roles : TableRoles) (s : Section) : List Reference :=
  (crossReferenceRows roles s.tables).map Reference.ofRow

/-- A place in the references of a section. -/
structure ReferenceCursor where
  /-- The rows still to be read of the current table. -/
  rows : List Row
  /-- The tables still to be read. -/
  tables : List Table
  deriving DecidableEq

namespace ReferenceCursor

/-- The next reference and the cursor behind it; tables that hold no references
    are passed over. -/
def read (roles : TableRoles) : List Row → List Table → Option (Reference × ReferenceCursor)
  | row :: rows, tables => some (.ofRow row, ⟨rows, tables⟩)
  | [], [] => none
  | [], t :: tables => read roles (if roles.isCrossReference t.name then t.rows else []) tables

/-- The next reference and the cursor behind it; `none` at the end. -/
def next? (roles : TableRoles) (c : ReferenceCursor) : Option (Reference × ReferenceCursor) :=
  read roles c.rows c.tables

/-- The references that the cursor has still to read. -/
def toList (roles : TableRoles) (c : ReferenceCursor) : List Reference :=
  (c.rows ++ crossReferenceRows roles c.tables).map .ofRow

/-- The number of references that the cursor has still to read. -/
def remaining (roles : TableRoles) (c : ReferenceCursor) : Nat := (c.toList roles).length

variable {roles : TableRoles}

theorem crossReferenceRows_cons (t : Table) (ts : List Table) :
    crossReferenceRows roles (t :: ts) =
      (if roles.isCrossReference t.name then t.rows else []) ++ crossReferenceRows roles ts := by
  cases h : roles.isCrossReference t.name <;> simp [crossReferenceRows, h]

theorem toList_of_read_eq_some {rows : List Row} {tables : List Table} {r : Reference}
    {c : ReferenceCursor} (h : read roles rows tables = some (r, c)) :
    toList roles ⟨rows, tables⟩ = r :: toList roles c := by
  fun_induction read roles rows tables with
  | case1 => cases h; simp [toList]
  | case2 => cases h
  | case3 t tables ih =>
    rw [← ih h]
    simp [toList, crossReferenceRows_cons]

theorem toList_of_read_eq_none {rows : List Row} {tables : List Table}
    (h : read roles rows tables = none) : toList roles ⟨rows, tables⟩ = [] := by
  fun_induction read roles rows tables with
  | case1 => cases h
  | case2 => rfl
  | case3 t tables ih =>
    rw [← ih h]
    simp [toList, crossReferenceRows_cons]

/-- A read takes the head of the list. -/
theorem toList_of_next?_eq_some {c c' : ReferenceCursor} {r : Reference}
    (h : c.next? roles = some (r, c')) : c.toList roles = r :: c'.toList roles :=
  toList_of_read_eq_some h

/-- The end is reached when the list is empty. -/
theorem toList_of_next?_eq_none {c : ReferenceCursor} (h : c.next? roles = none) :
    c.toList roles = [] :=
  toList_of_read_eq_none h

end ReferenceCursor

/-- The cursor before the first reference of a section. -/
def Section.cursor (s : Section) : ReferenceCursor := ⟨[], s.tables⟩

@[simp] theorem Section.toList_cursor (roles : TableRoles) (s : Section) :
    s.cursor.toList roles = s.references roles := rfl

end InstallerLinker
