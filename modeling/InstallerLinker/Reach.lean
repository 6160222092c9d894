/-
  Installer linker — which sections a link reaches.

  From the entry, each reference leads to the symbol that it names and thus to
  the section that owns that symbol, which is visited in turn.  A section is
  visited once; cycles are harmless.

  The search goes into a section as soon as a reference leads to it and comes
  back to the remaining references afterwards.  It keeps a stack with one frame
  for each section that it has entered and not left, so the depth of a chain of
  references is limited by memory alone.

  * `Scope` is what a search reads, and `Scope.skips` tells which references it
    passes over;
  * `Reach` is what it finds: the sections and symbols in the order in which
    they were first met, and the references that lead nowhere;
  * `Traversal` is its state and `Scope.step` one iteration; `Scope.run`
    iterates to the end (`run_of_step_eq_some`, `run_of_step_eq_none`);
  * `measure_advance_add_one`: each iteration takes one off `Scope.measure`, which
    weighs the sections still unvisited and the references still unread.
-/
import InstallerLinker.IndexSet
import InstallerLinker.Reference
import InstallerLinker.SymbolTable

namespace InstallerLinker

/-! ## What a search finds -/

/-- A reference to a symbol that no section defines. -/
structure DanglingReference where
  /-- The section that holds the reference. -/
  sectionIndex : SectionIndex
  reference : Reference
  deriving DecidableEq

/-- The result of a search. -/
structure Reach where
  /-- The sections reached, in the order in which they were first visited. -/
  sections : IndexSet
  /-- The symbols referred to, in the order in which that first happened. -/
  symbols : IndexSet
  /-- The references that lead nowhere, in the order in which they were met. -/
  dangling : Array DanglingReference
  deriving DecidableEq

namespace Reach

/-- Nothing found among the given numbers of sections and symbols. -/
def empty (sectionCount symbolCount : Nat) : Reach :=
  ⟨.empty sectionCount, .empty symbolCount, #[]⟩

/-- Whether a section was reached. -/
def includes (r : Reach) (i : SectionIndex) : Bool := r.sections.contains i

/-- Whether a symbol was referred to. -/
def refersTo (r : Reach) (k : SymbolIndex) : Bool := r.symbols.contains k

end Reach

/-! ## The search -/

/-- What a search reads and does not change. -/
structure Scope where
  /-- The sections that can be visited. -/
  sections : Array Section
  /-- The symbols that references can name; some of them may be owned by a
      section that is not in `sections`. -/
  symbols : SymbolTable
  roles : TableRoles
  /-- Whether a merge module is built, which does without media. -/
  mergeModule : Bool

/-- A section that the search has entered and not left. -/
structure Frame where
  sectionIndex : SectionIndex
  /-- The references that are still to be followed. -/
  cursor : ReferenceCursor
  deriving DecidableEq

/-- The state of a search. -/
structure Traversal where
  reach : Reach
  /-- The sections entered and not left, the last one first. -/
  stack : List Frame
  deriving DecidableEq

/-- How many sections one expects to be entered at a time.  This is no limit. -/
def Traversal.expectedDepth : Nat := 32

namespace Scope

variable (g : Scope)

/-- Whether a reference is passed over: a merge module needs no media. -/
def skips (r : Reference) : Bool := g.mergeModule && g.roles.isMedia r.table

/-- Enter section `i` if there is one and it has not been visited. -/
def visit (t : Traversal) (i : SectionIndex) : Traversal :=
  match g.sections[i]?, t with
  | none, t => t
  | some s, ⟨⟨sections, symbols, dangling⟩, stack⟩ =>
    if sections.isFree i then
      ⟨⟨sections.insert i, symbols, dangling⟩, ⟨i, s.cursor⟩ :: stack⟩
    else ⟨⟨sections, symbols, dangling⟩, stack⟩

/-- Take note of a reference to symbol `k`. -/
def refer (t : Traversal) (k : SymbolIndex) : Traversal :=
  match t with
  | ⟨⟨sections, symbols, dangling⟩, stack⟩ => ⟨⟨sections, symbols.insert k, dangling⟩, stack⟩

/-- Take note of a reference in section `i` that leads nowhere. -/
def dangle (t : Traversal) (i : SectionIndex) (r : Reference) : Traversal :=
  match t with
  | ⟨⟨sections, symbols, dangling⟩, stack⟩ =>
    ⟨⟨sections, symbols, dangling.push ⟨i, r⟩⟩, stack⟩

/-- Follow a reference that stands in section `i`. -/
def follow (t : Traversal) (i : SectionIndex) (r : Reference) : Traversal :=
  if g.skips r then t
  else
    match g.symbols.lookup r.targetName with
    | none => dangle t i r
    | some k =>
      match g.symbols.get? k with
      | none => refer t k
      | some s => g.visit (refer t k) s.owner.sectionIndex

/-- One iteration, where `f` is the section entered last: follow its next
    reference, or leave it if there is none. -/
def advance (reach : Reach) (f : Frame) (below : List Frame) : Traversal :=
  match f.cursor.next? g.roles with
  | none => ⟨reach, below⟩
  | some (r, cursor) => g.follow ⟨reach, ⟨f.sectionIndex, cursor⟩ :: below⟩ f.sectionIndex r

/-- One iteration; `none` when no section is left on the stack. -/
def step (t : Traversal) : Option Traversal :=
  match t with
  | ⟨_, []⟩ => none
  | ⟨reach, f :: below⟩ => some (g.advance reach f below)

/-- The state before the first iteration: only the entry has been entered, and
    not even that if there is no such section. -/
def start (entry : SectionIndex) : Traversal :=
  g.visit ⟨.empty g.sections.size g.symbols.size, []⟩ entry

/-! ## Termination -/

/-- What it takes to read section `i`: each of its references, and to leave it. -/
def weight (i : SectionIndex) : Nat :=
  match g.sections[i]? with
  | none => 0
  | some s => (s.references g.roles).length + 1

/-- What remains to be read of the sections on a stack. -/
def stackWeight : List Frame → Nat
  | [] => 0
  | f :: stack => f.cursor.remaining g.roles + 1 + stackWeight stack

/-- What remains to be read of all sections. -/
def measure (t : Traversal) : Nat :=
  t.reach.sections.pending g.weight + g.stackWeight t.stack

@[simp] theorem stackWeight_cons (f : Frame) (stack : List Frame) :
    g.stackWeight (f :: stack) = f.cursor.remaining g.roles + 1 + g.stackWeight stack := rfl

/-- Entering a section moves its weight from the unvisited sections to the
    stack. -/
theorem measure_visit (t : Traversal) (i : SectionIndex) : g.measure (g.visit t i) = g.measure t := by
  obtain ⟨⟨sections, symbols, dangling⟩, stack⟩ := t
  cases hs : g.sections[i]? with
  | none => simp only [visit, hs]
  | some s =>
    simp only [visit, hs]
    split
    · rename_i hfree
      have := sections.pending_insert g.weight hfree
      simp only [weight, hs] at this
      simp only [measure, stackWeight_cons, ReferenceCursor.remaining, Section.toList_cursor]
      omega
    · rfl

@[simp] theorem measure_refer (t : Traversal) (k : SymbolIndex) :
    g.measure (refer t k) = g.measure t := rfl

@[simp] theorem measure_dangle (t : Traversal) (i : SectionIndex) (r : Reference) :
    g.measure (dangle t i r) = g.measure t := rfl

theorem measure_follow (t : Traversal) (i : SectionIndex) (r : Reference) :
    g.measure (g.follow t i r) = g.measure t := by
  unfold follow
  split
  · rfl
  · split
    · simp
    · split
      · simp
      · rw [measure_visit, measure_refer]

/-- Each iteration takes one off the measure. -/
theorem measure_advance_add_one (reach : Reach) (f : Frame) (below : List Frame) :
    g.measure (g.advance reach f below) + 1 = g.measure ⟨reach, f :: below⟩ := by
  unfold advance
  split
  · rename_i hn
    have hf : f.cursor.remaining g.roles = 0 := by
      simp [ReferenceCursor.remaining, ReferenceCursor.toList_of_next?_eq_none hn]
    simp only [measure, stackWeight_cons, hf]
    omega
  · rename_i r cursor hn
    have hr : f.cursor.remaining g.roles = cursor.remaining g.roles + 1 := by
      simp [ReferenceCursor.remaining, ReferenceCursor.toList_of_next?_eq_some hn]
    rw [measure_follow]
    simp only [measure, stackWeight_cons, hr]
    omega

theorem measure_advance (reach : Reach) (f : Frame) (below : List Frame) :
    g.measure (g.advance reach f below) < g.measure ⟨reach, f :: below⟩ :=
  Nat.lt_of_succ_le (Nat.le_of_eq (g.measure_advance_add_one reach f below))

/-- Iterate until no section is left. -/
def run (t : Traversal) : Reach :=
  match t with
  | ⟨reach, []⟩ => reach
  | ⟨reach, f :: below⟩ => run (g.advance reach f below)
termination_by g.measure t
decreasing_by exact g.measure_advance reach f below

theorem run_of_step_eq_none {t : Traversal} (h : g.step t = none) : g.run t = t.reach := by
  obtain ⟨reach, _ | ⟨f, below⟩⟩ := t
  · rw [run]
  · cases h

theorem run_of_step_eq_some {t t' : Traversal} (h : g.step t = some t') : g.run t = g.run t' := by
  obtain ⟨reach, _ | ⟨f, below⟩⟩ := t
  · cases h
  · cases h
    rw [run]

/-- What can be reached from the entry. -/
def reachFrom (entry : SectionIndex) : Reach := g.run (g.start entry)

end Scope

end InstallerLinker
