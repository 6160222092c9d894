/-
  Installer linker — the order of the ids.

  The order is built from the front.  Of the ids whose constraints are met by
  what has been placed, the smallest comes next; without constraints this is the
  order of the ids as text.

  * `Sorter` is the state: how many ids each id still waits for, the ids that
    wait for none, smallest first, and the ids placed so far; `placeNext` places
    the next one and `sortRun` goes on to the end;
  * `PrecedenceGraph.sorted` is the order; ids that wait for ever, as those on a
    cycle do, are not in it;
  * `PrecedenceGraph.order` gives the order of all ids or reports the cycles.
-/
import InstallerLinker.PrecedenceGraph.Closure

namespace InstallerLinker

/-! ## Placing one id after the other -/

/-- An order under construction. -/
structure Sorter where
  /-- For each position, how many others still have to be placed before it. -/
  waiting : Array Nat
  /-- The positions that wait for none and are not placed, by id. -/
  ready : List Nat
  /-- The positions placed so far, in order. -/
  placed : Array Nat
  deriving DecidableEq

namespace PrecedenceGraph

variable (g : PrecedenceGraph)

/-- For each position, those that must come after it. -/
def followers : Array (List Nat) :=
  (List.range g.size).foldl
    (fun table i => (g.targetsAt i).foldl (fun table j => table.modify j (i :: ·)) table)
    (Array.replicate g.size [])

/-- Add a position to those that are ready, which are ordered by id. -/
def insertReady (i : Nat) : List Nat → List Nat
  | [] => [i]
  | j :: js => if g.idAt i < g.idAt j then i :: j :: js else j :: insertReady i js

/-- Position `i` waits for one less; it is ready when it waits for none. -/
def release (s : Sorter) (i : Nat) : Sorter :=
  match s with
  | ⟨waiting, ready, placed⟩ =>
    match waiting.getD i 0 with
    | 0 => ⟨waiting, ready, placed⟩
    | n + 1 =>
      ⟨waiting.setIfInBounds i n, if n = 0 then g.insertReady i ready else ready, placed⟩

/-- Place position `i`, the first of those that are ready; `ready` are the
    others.  The table tells what must come after each position. -/
def placeNext (followers : Array (List Nat)) (waiting : Array Nat) (i : Nat) (ready : List Nat)
    (placed : Array Nat) : Sorter :=
  (followers.getD i []).foldl g.release ⟨waiting, ready, placed.push i⟩

/-- Nothing is placed; what has no constraints is ready. -/
def sortStart : Sorter where
  waiting := g.vertices.map (·.constraints.length)
  ready := ((List.range g.size).filter fun i => (g.constraintsAt i).isEmpty).mergeSort
    fun i j => g.idAt i ≤ g.idAt j
  placed := #[]

end PrecedenceGraph

/-! ## Termination -/

/-- What remains to be done: to count down, and to place what is ready. -/
def Sorter.measure (s : Sorter) : Nat := s.waiting.toList.foldr (· + ·) 0 + s.ready.length

/-- Counting one place of a list down takes one off its sum. -/
theorem sum_set_pred {ns : List Nat} {i n : Nat} (h : ns[i]? = some (n + 1)) :
    (ns.set i n).foldr (· + ·) 0 + 1 = ns.foldr (· + ·) 0 := by
  induction ns generalizing i with
  | nil => simp at h
  | cons m ns ih =>
    cases i with
    | zero =>
      simp only [List.getElem?_cons_zero, Option.some.injEq] at h
      simp only [List.set_cons_zero, List.foldr_cons]
      omega
    | succ i =>
      have := ih (i := i) (by simpa using h)
      simp only [List.set_cons_succ, List.foldr_cons]
      omega

namespace PrecedenceGraph

variable (g : PrecedenceGraph)

@[simp] theorem length_insertReady (i : Nat) (js : List Nat) :
    (g.insertReady i js).length = js.length + 1 := by
  induction js with
  | nil => rfl
  | cons j js ih =>
    rw [insertReady]
    split <;> simp [ih]

theorem measure_release_le (s : Sorter) (i : Nat) : (g.release s i).measure ≤ s.measure := by
  obtain ⟨waiting, ready, placed⟩ := s
  simp only [release]
  split
  · exact Nat.le_refl _
  · rename_i n hn
    have hi : waiting.toList[i]? = some (n + 1) := by
      rw [Array.getD_eq_getD_getElem?] at hn
      rw [Array.getElem?_toList]
      cases h : waiting[i]? <;> simp_all
    have := sum_set_pred hi
    simp only [Sorter.measure, Array.toList_setIfInBounds]
    split
    · rw [length_insertReady]
      omega
    · omega

theorem measure_foldl_release_le (is : List Nat) (s : Sorter) :
    (is.foldl g.release s).measure ≤ s.measure := by
  induction is generalizing s with
  | nil => exact Nat.le_refl _
  | cons i is ih => exact Nat.le_trans (ih _) (g.measure_release_le s i)

/-- Each step lowers the measure. -/
theorem measure_placeNext (followers : Array (List Nat)) (waiting : Array Nat) (i : Nat)
    (ready : List Nat) (placed : Array Nat) :
    (g.placeNext followers waiting i ready placed).measure <
      (Sorter.mk waiting (i :: ready) placed).measure := by
  refine Nat.lt_of_le_of_lt (g.measure_foldl_release_le _ _) ?_
  simp [Sorter.measure]

/-- Place ids until none is ready. -/
def sortRun (followers : Array (List Nat)) (s : Sorter) : Sorter :=
  match s with
  | ⟨waiting, [], placed⟩ => ⟨waiting, [], placed⟩
  | ⟨waiting, i :: ready, placed⟩ => sortRun followers (g.placeNext followers waiting i ready placed)
termination_by s.measure
decreasing_by exact g.measure_placeNext followers waiting i ready placed

/-! ## The order of all ids -/

/-- The ids in an order that meets the constraints, the smallest possible id
    coming next at each place.  Ids that wait for ever are left out. -/
def sorted : List String := (g.sortRun g.followers g.sortStart).placed.toList.map g.idAt

/-- The order of all ids, with the graph closed; or, if there are cycles, their
    report and the graph as it was. -/
def order (log : Log CircularConstraint) :
    Option (List String) × PrecedenceGraph × Log CircularConstraint :=
  match g.reportCycles log with
  | (0, log) =>
    let g := g.close
    (some g.sorted, g, log)
  | (_ + 1, log) => (none, g, log)

end PrecedenceGraph

end InstallerLinker
