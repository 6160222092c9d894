/-
  Installer linker — where something was authored.

  A location is the source file (or another named origin) of a section, a row
  or a reference, with the number of its line where one is known.  Lines count
  from one, so a line numbered zero is no line.

  * `whole` and `atLine` build a location of an origin, `unknown` stands where
    none is known;
  * `text` is how a location is printed: two different locations may print
    alike (`"a:1"` as a whole, line one of `"a"`);
  * locations are ordered by origin, and within one origin by line, where no
    line comes before every line.
-/

namespace InstallerLinker

/-- A place in the authoring sources. -/
structure Location where
  /-- The source file, or another name of the origin. -/
  origin : String
  /-- The line within the origin, if known. -/
  line : Option Nat
  /-- Lines count from one. -/
  line_ne_zero : line ≠ some 0
  deriving DecidableEq

namespace Location

/-- The origin as a whole. -/
def whole (origin : String) : Location := ⟨origin, none, nofun⟩

/-- Line `n` of the origin; as there is no line zero, that stands for the origin
    as a whole. -/
def atLine (origin : String) : Nat → Location
  | 0 => whole origin
  | n + 1 => ⟨origin, some (n + 1), by simp⟩

/-- The origin named where the true one is not known. -/
def unknownOrigin : String := "<unknown>"

/-- The location of something that came from nowhere in particular. -/
def unknown : Location := whole unknownOrigin

instance : Inhabited Location := ⟨unknown⟩

/-- Whether this is the location `unknown`. -/
def isUnknown (l : Location) : Bool := l.line.isNone && l.origin == unknownOrigin

/-- The origin, followed by a colon and the line if there is one. -/
def text (l : Location) : String :=
  match l.line with
  | none => l.origin
  | some n => l.origin ++ ":" ++ toString n

/-- The order of lines: no line first, then by number. -/
def compareLines : Option Nat → Option Nat → Ordering
  | none, none => .eq
  | none, some _ => .lt
  | some _, none => .gt
  | some m, some n => compare m n

instance : Ord Location :=
  ⟨fun a b => (compare a.origin b.origin).then (compareLines a.line b.line)⟩

@[simp] theorem atLine_zero (origin : String) : atLine origin 0 = whole origin := rfl

@[simp] theorem origin_atLine (origin : String) (n : Nat) : (atLine origin n).origin = origin := by
  cases n <;> rfl

theorem isUnknown_iff (l : Location) : l.isUnknown = true ↔ l = unknown := by
  obtain ⟨origin, line, _⟩ := l
  cases line <;> simp [isUnknown, unknown, whole]

end Location

end InstallerLinker
