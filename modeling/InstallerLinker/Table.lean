/-
  Installer linker — compiled tables.

  * `TableSchema` says how a table is named, whether its rows define
    symbols, and which of its columns make up the primary key; a table that
    declares no key is keyed by its first column (`keyColumns`);
  * `TableSchema.symbolName` is the name of the symbol that a row defines:
    the name of the table, a colon, and the texts of the key columns between
    slashes;
  * `Table` is a schema with its rows.
-/
import InstallerLinker.Row

namespace InstallerLinker

/-- Stands between two parts of a primary key in the name of a symbol. -/
def keySeparator : String := "/"

/-- Stands between the table and the primary key in the name of a symbol. -/
def tableSeparator : String := ":"

/-- The kind of values that a column is meant to hold. -/
inductive ColumnKind where
  | string
  | number
  deriving DecidableEq, Inhabited

/-- A column of a table. -/
structure Column where
  name : String
  kind : ColumnKind
  isPrimaryKey : Bool
  deriving DecidableEq

/-- What all tables of one name have in common. -/
structure TableSchema where
  name : String
  columns : List Column
  /-- Whether each row defines a symbol. -/
  definesSymbols : Bool
  deriving DecidableEq

namespace TableSchema

/-- A table of references to symbols of other sections: the first column names
    a table, the second holds a primary key.  Its rows define nothing. -/
def crossReferences (name : String) : TableSchema where
  name := name
  columns := [⟨"Table", .string, true⟩, ⟨"PrimaryKeys", .string, true⟩]
  definesSymbols := false

/-- The positions of the columns marked as primary key, in column order. -/
def markedColumns (s : TableSchema) : List Nat :=
  (List.range s.columns.length).filter fun i => (s.columns[i]?.map (·.isPrimaryKey)).getD false

/-- The positions of the key columns: those marked as such, and the first column
    if none is. -/
def keyColumns (s : TableSchema) : List Nat :=
  if s.markedColumns.isEmpty then [0] else s.markedColumns

/-- The texts of the key columns of a row. -/
def keyTexts (s : TableSchema) (r : Row) : List String := s.keyColumns.map r.keyText

/-- The name of the symbol that a row of this table defines. -/
def symbolName (s : TableSchema) (r : Row) : String :=
  s.name ++ tableSeparator ++ keySeparator.intercalate (s.keyTexts r)

end TableSchema

/-- A compiled table: its schema and its rows. -/
structure Table where
  schema : TableSchema
  rows : List Row
  deriving DecidableEq

namespace Table

/-- A table is called what its schema is called. -/
def name (t : Table) : String := t.schema.name

/-- The table with a row more, at its end. -/
def addRow (t : Table) (r : Row) : Table := { t with rows := t.rows ++ [r] }

/-- The names of the symbols that the rows of a table define. -/
def symbolNames (t : Table) : List String := t.rows.map t.schema.symbolName

end Table

end InstallerLinker
