/-
  Installer linker — graphs of constraints on an order.

  A constraint says that one id must come after another.  It is stated if it was
  given with the location that it was authored at, and implied if it merely
  follows from others.  Ids, and the constraints of each id, keep the order in
  which they were added.

  * `PrecedenceGraph` holds the ids and their constraints; within the library an
    id is known by its position;
  * `addId` and `addConstraint` build a graph; the latter tells whether the
    constraint had not been stated before;
  * `after` lists the ids that an id must follow;
  * the lemmas on `place` and `updateAt` say what each does to the ids, to their
    positions and to their constraints.
-/
import Std.Data.TreeMap.Lemmas
import InstallerLinker.Location

namespace InstallerLinker

/-- What an id must come after. -/
structure Constraint where
  /-- The position of the id that must come first. -/
  target : Nat
  /-- Where the constraint was authored; an implied one was not. -/
  location : Option Location
  deriving DecidableEq

/-- An id with its constraints. -/
structure Vertex where
  id : String
  /-- What the id must come after, in the order in which that was added. -/
  constraints : List Constraint
  deriving DecidableEq

/-- Ids and the constraints on their order. -/
structure PrecedenceGraph where
  /-- The ids in the order in which they were added. -/
  vertices : Array Vertex
  /-- The position of each id. -/
  index : Std.TreeMap String Nat

namespace PrecedenceGraph

/-- The graph without ids. -/
def empty : PrecedenceGraph := ⟨#[], ∅⟩

instance : EmptyCollection PrecedenceGraph := ⟨empty⟩
instance : Inhabited PrecedenceGraph := ⟨empty⟩

variable (g : PrecedenceGraph)

/-- The number of ids. -/
def size : Nat := g.vertices.size

/-- Whether there are no ids. -/
def isEmpty : Bool := g.vertices.isEmpty

/-- The ids in the order in which they were added. -/
def ids : List String := g.vertices.toList.map (·.id)

/-- The position of an id. -/
def position? (id : String) : Option Nat := g.index[id]?

/-- Whether an id is in the graph. -/
def contains (id : String) : Bool := (g.position? id).isSome

/-- The id at a position; empty if there is none. -/
def idAt (i : Nat) : String :=
  match g.vertices[i]? with
  | none => ""
  | some v => v.id

/-- The constraints of the id at a position. -/
def constraintsAt (i : Nat) : List Constraint :=
  match g.vertices[i]? with
  | none => []
  | some v => v.constraints

/-- The positions that the id at a position must come after. -/
def targetsAt (i : Nat) : List Nat := (g.constraintsAt i).map (·.target)

/-- The constraint between two positions, if there is one. -/
def constraint? (i j : Nat) : Option Constraint := (g.constraintsAt i).find? (·.target == j)

/-- The ids that an id must come after, in the order in which the constraints
    were added. -/
def after (id : String) : List String :=
  match g.position? id with
  | none => []
  | some i => (g.targetsAt i).map g.idAt

/-! ## Building a graph -/

/-- The graph with an id added unless it is there, and the position of the id. -/
def place (id : String) : PrecedenceGraph × Nat :=
  match g.position? id with
  | some i => (g, i)
  | none =>
    match g with
    | ⟨vertices, index⟩ =>
      let i := vertices.size
      (⟨vertices.push ⟨id, []⟩, index.insert id i⟩, i)

/-- The graph with an id added unless it is there. -/
def addId (id : String) : PrecedenceGraph := (g.place id).1

/-- The graph with the constraints of the id at a position changed. -/
def updateAt (i : Nat) (f : List Constraint → List Constraint) : PrecedenceGraph :=
  match g with
  | ⟨vertices, index⟩ => ⟨vertices.modify i fun v => ⟨v.id, f v.constraints⟩, index⟩

/-- State that position `i` must come after position `j`: this adds a constraint
    or gives its location to an implied one.  The Boolean tells whether the
    constraint had not been stated before. -/
def stateAt (i j : Nat) (location : Location) : PrecedenceGraph × Bool :=
  match g.constraint? i j with
  | none => (g.updateAt i (· ++ [⟨j, some location⟩]), true)
  | some ⟨_, some _⟩ => (g, false)
  | some ⟨_, none⟩ =>
    (g.updateAt i (·.map fun c => if c.target == j then ⟨j, some location⟩ else c), true)

/-- State that `id` must come after `first`, adding either id unless it is there.
    The Boolean tells whether the constraint had not been stated before. -/
def addConstraint (id first : String) (location : Location) : PrecedenceGraph × Bool :=
  match g.place id with
  | (g, i) =>
    match g.place first with
    | (g, j) => g.stateAt i j location

/-- Note that position `i` must come after each of the positions `js`. -/
def implyAt (i : Nat) (js : List Nat) : PrecedenceGraph :=
  g.updateAt i (· ++ js.map (⟨·, none⟩))

/-- What a search spends on the id at a position: each of its constraints, and
    to leave it. -/
def weight (i : Nat) : Nat := (g.targetsAt i).length + 1

/-! ## What the operations do -/

@[simp] theorem ids_empty : (∅ : PrecedenceGraph).ids = [] := rfl

@[simp] theorem length_ids : g.ids.length = g.size := by simp [ids, size]

@[simp] theorem position?_empty (id : String) : (∅ : PrecedenceGraph).position? id = none := by
  show (∅ : Std.TreeMap String Nat)[id]? = none
  simp

theorem place_of_position?_eq_some {id : String} {i : Nat} (h : g.position? id = some i) :
    g.place id = (g, i) := by
  simp [place, h]

/-- A new id comes behind the others and without constraints. -/
theorem place_of_position?_eq_none {id : String} (h : g.position? id = none) :
    g.place id = (⟨g.vertices.push ⟨id, []⟩, g.index.insert id g.size⟩, g.size) := by
  simp [place, h, size]

theorem ids_addId (id : String) :
    (g.addId id).ids = if g.contains id then g.ids else g.ids ++ [id] := by
  cases h : g.position? id with
  | some i => simp [addId, contains, h, g.place_of_position?_eq_some h]
  | none => simp [addId, contains, h, g.place_of_position?_eq_none h, ids]

theorem position?_addId (id id' : String) :
    (g.addId id).position? id' =
      if id = id' ∧ g.contains id = false then some g.size else g.position? id' := by
  cases h : g.position? id with
  | some i => simp [addId, contains, h, g.place_of_position?_eq_some h]
  | none =>
    have hc : g.contains id = false := by rw [contains, h]; rfl
    rw [addId, g.place_of_position?_eq_none h, hc]
    simp [position?, Std.TreeMap.getElem?_insert]

@[simp] theorem size_updateAt (i : Nat) (f : List Constraint → List Constraint) :
    (g.updateAt i f).size = g.size := by
  simp [updateAt, size]

@[simp] theorem position?_updateAt (i : Nat) (f : List Constraint → List Constraint)
    (id : String) : (g.updateAt i f).position? id = g.position? id := rfl

@[simp] theorem idAt_updateAt (i : Nat) (f : List Constraint → List Constraint) (j : Nat) :
    (g.updateAt i f).idAt j = g.idAt j := by
  simp only [idAt, updateAt, Array.getElem?_modify]
  cases g.vertices[j]? <;> by_cases hij : i = j <;> simp [hij]

/-- Only the constraints of the given position change. -/
theorem constraintsAt_updateAt (i : Nat) (f : List Constraint → List Constraint) (j : Nat) :
    (g.updateAt i f).constraintsAt j =
      if i = j ∧ j < g.size then f (g.constraintsAt j) else g.constraintsAt j := by
  simp only [constraintsAt, updateAt, Array.getElem?_modify, size]
  by_cases hij : i = j
  · by_cases hj : j < g.vertices.size
    · simp [hij, hj]
    · simp [hij, hj]
  · simp [hij]

end PrecedenceGraph

end InstallerLinker
