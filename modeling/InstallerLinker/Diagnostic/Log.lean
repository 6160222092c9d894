/-
  Installer linker — the log of the problems found so far.

  A link reports everything that it finds and leaves it to its caller when to
  stop, so the log only ever grows at its end: nothing is dropped, merged or
  reordered.

  * `toList` is the view of a log in which the operations are described:
    `toList_push`, `toList_extend`;
  * `errors` and `warnings` split a log by whether a message is fatal, and
    `hasErrors_iff` says that there is an error exactly if the former is not
    empty.
-/
import InstallerLinker.Diagnostic

namespace InstallerLinker

/-- The diagnostics found so far, in the order in which they were found. -/
structure Log (δ : Type) where
  entries : Array δ
  deriving DecidableEq

namespace Log

variable {δ : Type}

/-- The log in which nothing has been reported. -/
def empty : Log δ := ⟨#[]⟩

instance : EmptyCollection (Log δ) := ⟨empty⟩
instance : Inhabited (Log δ) := ⟨empty⟩

/-- The diagnostics in the order in which they were found. -/
def toList (log : Log δ) : List δ := log.entries.toList

/-- Report one more problem. -/
def push (log : Log δ) (d : δ) : Log δ := ⟨log.entries.push d⟩

/-- Report several more problems, in order. -/
def extend (log : Log δ) (ds : List δ) : Log δ := ⟨log.entries.appendList ds⟩

/-- The number of diagnostics. -/
def size (log : Log δ) : Nat := log.entries.size

/-- Whether nothing has been reported. -/
def isEmpty (log : Log δ) : Bool := log.entries.isEmpty

/-! ## The view as a list -/

@[ext] theorem ext {log log' : Log δ} (h : log.toList = log'.toList) : log = log' := by
  cases log; cases log'; simpa [toList, Array.toList_inj] using h

@[simp] theorem toList_empty : (∅ : Log δ).toList = [] := rfl

@[simp] theorem toList_push (log : Log δ) (d : δ) : (log.push d).toList = log.toList ++ [d] := by
  simp [toList, push]

@[simp] theorem toList_extend (log : Log δ) (ds : List δ) :
    (log.extend ds).toList = log.toList ++ ds := by
  simp [toList, extend]

@[simp] theorem length_toList (log : Log δ) : log.toList.length = log.size := by
  simp [toList, size]

theorem isEmpty_iff (log : Log δ) : log.isEmpty = true ↔ log.toList = [] := by
  simp [isEmpty, toList]

/-! ## Errors and warnings -/

section
variable [Diagnostic δ]

/-- The fatal diagnostics, in the order in which they were found. -/
def errors (log : Log δ) : List δ := log.toList.filter Diagnostic.isFatal

/-- The diagnostics that are not fatal, in the order in which they were found. -/
def warnings (log : Log δ) : List δ := log.toList.filter fun d => !Diagnostic.isFatal d

/-- Whether a fatal diagnostic has been reported. -/
def hasErrors (log : Log δ) : Bool := log.entries.any Diagnostic.isFatal

theorem hasErrors_iff (log : Log δ) : log.hasErrors = true ↔ log.errors ≠ [] := by
  simp [hasErrors, errors, toList, ← Array.any_toList]

end

end Log

end InstallerLinker
