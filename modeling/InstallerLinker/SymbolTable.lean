/-
  Installer linker — symbols and the table that holds them.

  Each row of a symbol-defining table defines a symbol.  The first row of a name
  owns the symbol; later rows of that name are kept as its duplicates, for which
  of them matter is only known once it is known which sections are linked.

  * `Definition` is a row that defines a symbol, `Symbol` an owner with its
    duplicates;
  * `SymbolTable` keeps the symbols in the order of their owners, finds them by
    name (`lookup`), and remembers which of them are defined more than once, in
    the order in which that came to light (`contested`);
  * `SymbolTable.define` adds a definition; where identical rows are allowed, a
    row equal to that of the owner only gives rise to a warning;
  * the lemmas on `addOwner` and `addDuplicate` say what each does to the list
    of symbols, to the look-up by name, and to the contested ones.
-/
import Std.Data.TreeMap.Lemmas
import InstallerLinker.LinkIssue

namespace InstallerLinker

/-- A row that defines a symbol. -/
structure Definition where
  /-- The section that holds the row. -/
  sectionIndex : SectionIndex
  table : TableSchema
  row : Row
  deriving DecidableEq

namespace Definition

/-- The name of the symbol that is defined. -/
def name (d : Definition) : String := d.table.symbolName d.row

/-- Where the symbol is defined. -/
def location (d : Definition) : Location := d.row.location

/-- How a message names the symbol. -/
def text (d : Definition) : String := "`" ++ d.name ++ "`"

end Definition

/-- The definitions of a section, in table and row order. -/
def Section.definitions (i : SectionIndex) (s : Section) : List Definition :=
  s.symbolTables.flatMap fun t => t.rows.map fun r => ⟨i, t.schema, r⟩

/-- A symbol: the definition that owns it and the others of its name. -/
structure Symbol where
  owner : Definition
  /-- The other definitions of the name, in the order in which they were met. -/
  duplicates : Array Definition
  deriving DecidableEq

namespace Symbol

/-- A symbol is called what its owner is called. -/
def name (s : Symbol) : String := s.owner.name

/-- Whether there are other definitions than the owner. -/
def hasDuplicates (s : Symbol) : Bool := !s.duplicates.isEmpty

/-- The symbol with a duplicate more. -/
def addDuplicate (s : Symbol) (d : Definition) : Symbol :=
  { s with duplicates := s.duplicates.push d }

end Symbol

/-- The position of a symbol in a symbol table. -/
abbrev SymbolIndex := Nat

/-- The symbols of a list of sections. -/
structure SymbolTable where
  /-- The symbols in the order of their owners. -/
  symbols : Array Symbol
  /-- The position of each symbol by its name. -/
  index : Std.TreeMap String SymbolIndex
  /-- The symbols with duplicates, in the order in which they got the first. -/
  contested : Array SymbolIndex

namespace SymbolTable

/-- The table without symbols. -/
def empty : SymbolTable := ⟨#[], ∅, #[]⟩

instance : EmptyCollection SymbolTable := ⟨empty⟩
instance : Inhabited SymbolTable := ⟨empty⟩

/-- The number of symbols; duplicates do not count. -/
def size (t : SymbolTable) : Nat := t.symbols.size

/-- Whether there are no symbols. -/
def isEmpty (t : SymbolTable) : Bool := t.symbols.isEmpty

/-- The position of the symbol of the given name. -/
def lookup (t : SymbolTable) (name : String) : Option SymbolIndex := t.index[name]?

/-- The symbol at the given position. -/
def get? (t : SymbolTable) (i : SymbolIndex) : Option Symbol := t.symbols[i]?

/-- The symbol of the given name. -/
def find? (t : SymbolTable) (name : String) : Option Symbol := (t.lookup name).bind t.get?

/-- The symbols in the order of their owners. -/
def toList (t : SymbolTable) : List Symbol := t.symbols.toList

/-- The symbols with duplicates, in the order in which they got the first. -/
def contestedSymbols (t : SymbolTable) : List Symbol := t.contested.toList.filterMap t.get?

/-- Add a symbol whose name is not in the table. -/
def addOwner (t : SymbolTable) (d : Definition) : SymbolTable :=
  match t with
  | ⟨symbols, index, contested⟩ =>
    let i := symbols.size
    ⟨symbols.push ⟨d, #[]⟩, index.insert d.name i, contested⟩

/-- Add a duplicate to the symbol at position `i`; `first` says that it is the
    first one of it. -/
def addDuplicate (t : SymbolTable) (i : SymbolIndex) (first : Bool) (d : Definition) :
    SymbolTable :=
  match t with
  | ⟨symbols, index, contested⟩ =>
    ⟨symbols.modify i (·.addDuplicate d), index, if first then contested.push i else contested⟩

section
variable (t : SymbolTable) (d : Definition)

@[simp] theorem toList_empty : (∅ : SymbolTable).toList = [] := rfl

@[simp] theorem lookup_empty (name : String) : (∅ : SymbolTable).lookup name = none := by
  show (∅ : Std.TreeMap String SymbolIndex)[name]? = none
  simp

@[simp] theorem length_toList : t.toList.length = t.size := rfl

@[simp] theorem toList_addOwner : (t.addOwner d).toList = t.toList ++ [⟨d, #[]⟩] := by
  simp [addOwner, toList]

/-- The new symbol is found behind the others; all other names stay where they
    were. -/
theorem lookup_addOwner (name : String) :
    (t.addOwner d).lookup name = if d.name = name then some t.size else t.lookup name := by
  simp [addOwner, lookup, size, Std.TreeMap.getElem?_insert]

@[simp] theorem contested_addOwner : (t.addOwner d).contested = t.contested := rfl

theorem toList_addDuplicate (i : SymbolIndex) (first : Bool) :
    (t.addDuplicate i first d).toList = t.toList.modify i (·.addDuplicate d) := by
  simp [addDuplicate, toList]

@[simp] theorem lookup_addDuplicate (i : SymbolIndex) (first : Bool) (name : String) :
    (t.addDuplicate i first d).lookup name = t.lookup name := rfl

theorem contested_addDuplicate (i : SymbolIndex) (first : Bool) :
    (t.addDuplicate i first d).contested = if first then t.contested.push i else t.contested := rfl

end

/-- Add a definition: it owns its symbol if it is the first of its name, and is
    a duplicate otherwise.  Where identical rows are allowed, one that equals
    the owner's row is not recorded but gives rise to a warning. -/
def define (allowIdentical : Bool) (t : SymbolTable) (d : Definition) :
    SymbolTable × Option LinkIssue :=
  match t.lookup d.name with
  | none => (t.addOwner d, none)
  | some i =>
    match t.get? i with
    | none => (t, none)
    | some s =>
      if allowIdentical && s.owner.row.isIdentical d.row then
        (t, some (.identicalDuplicateRow d.name d.location s.owner.location))
      else (t.addDuplicate i (!s.hasDuplicates) d, none)

end SymbolTable

end InstallerLinker
