/-
  Installer linker — the rows of compiled tables.

  A row is a sequence of fields with the location that it was authored at.  The
  linker reads rows but never checks them against the columns of their table,
  so a row may be shorter or longer than its table is wide.

  * `Field.text` is how a value appears in the name of a symbol;
  * `Row.fieldText` reads a column that holds text: it is empty where the row
    is too short or holds something else;
  * `Row.isIdentical` compares the values of two rows and not their locations.
-/
import InstallerLinker.Location

namespace InstallerLinker

/-- A value in a row. -/
inductive Field where
  | null
  | number (n : Int)
  | string (s : String)
  deriving DecidableEq, Inhabited

namespace Field

/-- The text of a textual value. -/
def asString? : Field → Option String
  | string s => some s
  | _ => none

/-- The value of a numeric value. -/
def asNumber? : Field → Option Int
  | number n => some n
  | _ => none

/-- Whether there is no value. -/
def isNull : Field → Bool
  | null => true
  | _ => false

/-- The value as it appears in the name of a symbol: no value appears as nothing,
    a number in decimal. -/
def text : Field → String
  | null => ""
  | number n => toString n
  | string s => s

end Field

/-- A row of a compiled table. -/
structure Row where
  fields : List Field
  /-- Where the row was authored. -/
  location : Location
  deriving DecidableEq

namespace Row

/-- The field in column `i`, if the row is long enough. -/
def field? (r : Row) (i : Nat) : Option Field := r.fields[i]?

/-- The text in column `i`; empty if the row is too short or the value is not a
    text. -/
def fieldText (r : Row) (i : Nat) : String := ((r.field? i).bind Field.asString?).getD ""

/-- The text by which column `i` enters the name of a symbol; empty if the row is
    too short. -/
def keyText (r : Row) (i : Nat) : String := ((r.field? i).map Field.text).getD ""

/-- Whether two rows hold the same values, wherever they were authored. -/
def isIdentical (r r' : Row) : Bool := r.fields == r'.fields

@[simp] theorem isIdentical_iff (r r' : Row) : r.isIdentical r' = true ↔ r.fields = r'.fields := by
  simp [isIdentical]

end Row

end InstallerLinker
