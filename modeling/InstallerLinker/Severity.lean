/-
  Installer linker — how serious a finding is.

  * `Severity` lists the levels from the worst to the mildest, and `rank`
    numbers them in that order, starting from one;
  * `text` is the word that a report prints for a level;
  * `isFatal` holds of the levels that make a link fail.
-/

namespace InstallerLinker

/-- The seriousness of a diagnostic, or of one annotation of it. -/
inductive Severity where
  /-- A fault of the linker itself, which its user cannot mend. -/
  | internalError
  /-- A fault in the linked input. -/
  | error
  /-- Something suspicious that does not prevent a link. -/
  | warning
  /-- A fact that supplements another annotation. -/
  | note
  /-- Advice on how to mend the problem. -/
  | help
  deriving DecidableEq, Repr, Inhabited

namespace Severity

/-- The position of a level, counted from the worst one; a lower rank is more
    serious. -/
def rank : Severity → Nat
  | internalError => 1
  | error => 2
  | warning => 3
  | note => 4
  | help => 5

/-- The word for a level in a report. -/
def text : Severity → String
  | internalError => "internal error"
  | error => "error"
  | warning => "warning"
  | note => "note"
  | help => "help"

/-- Levels are ordered by rank, the most serious one first. -/
instance : Ord Severity := ⟨fun a b => compare a.rank b.rank⟩

/-- Whether a diagnostic of this level makes the link fail. -/
def isFatal (s : Severity) : Bool := s.rank ≤ error.rank

@[simp] theorem isFatal_internalError : isFatal internalError = true := rfl
@[simp] theorem isFatal_error : isFatal error = true := rfl
@[simp] theorem isFatal_warning : isFatal warning = false := rfl
@[simp] theorem isFatal_note : isFatal note = false := rfl
@[simp] theorem isFatal_help : isFatal help = false := rfl

end Severity

end InstallerLinker
