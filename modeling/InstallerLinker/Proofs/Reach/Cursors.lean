/-
  Installer linker — the calls on a cursor.

  A cursor is asked for one reference at a time, and it may be set aside between any
  two calls.  A search does so all the time: each frame on its stack holds a cursor,
  and only the one on top is called.

  * `ReferenceCursor.after` is the cursor that so many calls leave behind, and
    `ReferenceCursor.call?` what each call returns: the calls go through
    `ReferenceCursor.toList` from its head (`call?_eq`), wherever the cursor stands;
  * `Section.references_eq_flatMap` reads the list of a whole section off its tables;
  * `Scope.Resumes` is the invariant on a frame: its cursor is the one that would be
    left if its section had been read without a break.  `Resumes.readNext`,
    `Resumes.setAside` and `resumes_cursor` say what an iteration does to the frame on
    top, to those below it, and to a section that is entered;
  * `cursors_read_in_order` puts the two together.
-/
import InstallerLinker.Survey
import InstallerLinker.Proofs.Reach.Iterations

namespace InstallerLinker

/-! ## The references of a table -/

/-- The references that a table holds: one for each row of the cross-reference table,
    none in any other table. -/
def Table.references (roles : TableRoles) (t : Table) : List Reference :=
  if t.name = roles.crossReferenceTable then
    t.rows.map fun r => ⟨r.fieldText 0, r.fieldText 1, r.location⟩
  else []

theorem Section.references_eq_flatMap (roles : TableRoles) (s : Section) :
    s.references roles = s.tables.flatMap (Table.references roles) := by
  obtain ⟨_, _, tables, _⟩ := s
  simp only [Section.references]
  induction tables with
  | nil => rfl
  | cons t tables ih =>
    rw [ReferenceCursor.crossReferenceRows_cons, List.map_append, ih, List.flatMap_cons]
    congr 1
    by_cases h : t.name = roles.crossReferenceTable
    · have hrole : roles.isCrossReference t.name = true := by simp [TableRoles.isCrossReference, h]
      rw [Table.references, if_pos hrole, if_pos h]
      rfl
    · have hrole : ¬ roles.isCrossReference t.name = true := by
        simp [TableRoles.isCrossReference, Ne.symm h]
      rw [Table.references, if_neg hrole, if_neg h, List.map_nil]

/-! ## Calling a cursor again and again -/

namespace ReferenceCursor

variable (roles : TableRoles) (c : ReferenceCursor)

/-- The cursor that a call leaves behind; a call that finds nothing has gone through
    all tables. -/
def rest : ReferenceCursor := ((c.next? roles).map (·.2)).getD ⟨[], []⟩

/-- The cursor after `n` calls. -/
def after : Nat → ReferenceCursor
  | 0 => c
  | n + 1 => (after n).rest roles

/-- What call `n` returns, where the first one has number 0. -/
def call? (n : Nat) : Option Reference := ((c.after roles n).next? roles).map (·.1)

theorem map_fst_next? : (c.next? roles).map (·.1) = (c.toList roles).head? := by
  cases hn : c.next? roles with
  | none => simp [toList_of_next?_eq_none hn]
  | some p => simp [toList_of_next?_eq_some hn]

theorem toList_rest : (c.rest roles).toList roles = (c.toList roles).tail := by
  cases hn : c.next? roles with
  | none =>
    simp only [rest, hn, toList_of_next?_eq_none hn]
    rfl
  | some p => simp [rest, hn, toList_of_next?_eq_some hn]

/-- Each call takes one reference off the list. -/
theorem toList_after (n : Nat) : (c.after roles n).toList roles = (c.toList roles).drop n := by
  induction n with
  | zero => rfl
  | succ n ih => rw [after, toList_rest, ih, List.tail_drop]

/-- The calls go through the list, and find nothing when it is at its end. -/
theorem call?_eq (n : Nat) : c.call? roles n = (c.toList roles)[n]? := by
  rw [call?, map_fst_next?, toList_after, List.head?_drop]

end ReferenceCursor

theorem Section.call?_cursor_after (roles : TableRoles) (s : Section) (m n : Nat) :
    (s.cursor.after roles m).call? roles n = (s.references roles)[m + n]? := by
  rw [ReferenceCursor.call?_eq, ReferenceCursor.toList_after, Section.toList_cursor,
    List.getElem?_drop]

/-! ## The cursors on the stack of a search -/

namespace Scope

variable {g : Scope} {entry : SectionIndex} {read : List (SectionIndex × Reference)}

/-- The number of references of section `i` among those read. -/
def countAt (read : List (SectionIndex × Reference)) (i : SectionIndex) : Nat :=
  (readAt read i).length

/-- The frame goes on with section `s` where the search has stopped: what has been read
    of the section is what so many calls return, and the frame holds the cursor that
    these calls leave behind. -/
structure Resumes (g : Scope) (read : List (SectionIndex × Reference)) (f : Frame) (s : Section) :
    Prop where
  section_eq : g.sections[f.sectionIndex]? = some s
  read_eq : readAt read f.sectionIndex =
    (s.references g.roles).take (countAt read f.sectionIndex)
  cursor_eq : f.cursor = s.cursor.after g.roles (countAt read f.sectionIndex)

/-- The next call on the cursor of a frame returns the first reference that has not
    been read, and the others follow. -/
theorem Resumes.call?_eq {f : Frame} {s : Section} (h : g.Resumes read f s) (m : Nat) :
    f.cursor.call? g.roles m =
      (s.references g.roles)[countAt read f.sectionIndex + m]? := by
  rw [h.cursor_eq, Section.call?_cursor_after]

theorem Resumes.readNext {f : Frame} {s : Section} (h : g.Resumes read f s) {r : Reference}
    {cursor : ReferenceCursor} (hn : f.cursor.next? g.roles = some (r, cursor)) :
    g.Resumes (read ++ [(f.sectionIndex, r)]) ⟨f.sectionIndex, cursor⟩ s := by
  have hcount : countAt (read ++ [(f.sectionIndex, r)]) f.sectionIndex =
      countAt read f.sectionIndex + 1 := by
    rw [countAt, readAt_append_self, List.length_append, List.length_singleton, countAt]
  have hr : (s.references g.roles)[countAt read f.sectionIndex]? = some r := by
    have hcall := h.call?_eq 0
    rwa [ReferenceCursor.call?, ReferenceCursor.after, hn, eq_comm] at hcall
  refine ⟨h.section_eq, ?_, ?_⟩
  · rw [hcount, readAt_append_self, List.take_add_one, hr, ← h.read_eq, Option.toList_some]
  · rw [hcount, ReferenceCursor.after, ← h.cursor_eq, ReferenceCursor.rest, hn]
    rfl

theorem Resumes.setAside {f : Frame} {s : Section} (h : g.Resumes read f s) {i : SectionIndex}
    (hne : i ≠ f.sectionIndex) (r : Reference) : g.Resumes (read ++ [(i, r)]) f s := by
  have hread := readAt_append_of_ne read hne r
  have hcount : countAt (read ++ [(i, r)]) f.sectionIndex = countAt read f.sectionIndex :=
    congrArg List.length hread
  refine ⟨h.section_eq, ?_, ?_⟩
  · rw [hread, hcount]
    exact h.read_eq
  · rw [hcount]
    exact h.cursor_eq

theorem resumes_cursor {j : SectionIndex} {s : Section} (hs : g.sections[j]? = some s)
    (hread : readAt read j = []) : g.Resumes read ⟨j, s.cursor⟩ s where
  section_eq := hs
  read_eq := by rw [countAt, hread]; rfl
  cursor_eq := by rw [countAt, hread]; rfl

theorem Passes.resumes {t : Traversal} (h : g.Passes entry read t) :
    ∀ f ∈ t.stack, ∃ s, g.Resumes read f s := by
  induction h with
  | start =>
    rcases start_cases g entry with ⟨-, h⟩ | ⟨s, hs, -, h⟩
    · simp [h]
    · rw [h]
      intro f hf
      obtain rfl := List.mem_singleton.1 hf
      exact ⟨s, resumes_cursor hs rfl⟩
  | leave _ _ ih => exact fun f hf => ih f (List.mem_cons_of_mem _ hf)
  | @follow read reach f below r cursor hp hn ih =>
    have hstack : ∀ f' ∈ (⟨f.sectionIndex, cursor⟩ :: below : List Frame),
        ∃ s, g.Resumes (read ++ [(f.sectionIndex, r)]) f' s := by
      intro f' hf'
      rcases List.mem_cons.1 hf' with rfl | hbelow
      · obtain ⟨s, hs⟩ := ih f (List.mem_cons_self ..)
        exact ⟨s, hs.readNext hn⟩
      · -- no section is on the stack twice, so this one is not read on
        have hne : f.sectionIndex ≠ f'.sectionIndex := fun heq =>
          (List.nodup_cons.1 hp.trail.nodup).1 (mem_sectionsOn_iff.2 ⟨f', hbelow, heq.symm⟩)
        obtain ⟨s, hs⟩ := ih f' (List.mem_cons_of_mem _ hbelow)
        exact ⟨s, hs.setAside hne r⟩
    rcases follow_cases (g := g) ⟨reach, ⟨f.sectionIndex, cursor⟩ :: below⟩ f.sectionIndex r with
      ⟨-, h, -⟩ | ⟨j, s, -, hs, hfree, -, h⟩
    · rw [h]
      exact hstack
    · rw [h]
      intro f' hf'
      rcases List.mem_cons.1 hf' with rfl | hf'
      · -- nothing has been read of `j`, which has not been visited before
        have hvisited := hp.steady.visited f (List.mem_cons_self ..)
        have hunvisited := ((IndexSet.isFree_eq_true_iff _).1 hfree).2
        have hne : f.sectionIndex ≠ j := by
          rintro rfl
          exact Bool.noConfusion (hvisited.symm.trans hunvisited)
        refine ⟨s, resumes_cursor hs ?_⟩
        rw [readAt_append_of_ne read hne r, hp.steady.unvisited j hunvisited]
      · exact hstack f' hf'

end Scope

/-- **References are read in order, each once.**  The calls on the cursor of a section
    return the references of its cross-reference tables, table by table and row by
    row, and nothing from then on; a cursor that is taken up again after some calls
    goes on with the reference that is next.  The frames of a search do so, however
    often they are interrupted: what has been read of a section is what so many calls
    return, and its frame goes on from there. -/
theorem cursors_read_in_order :
    (∀ (roles : TableRoles) (s : Section),
      s.references roles = s.tables.flatMap (Table.references roles) ∧
      (∀ n, s.cursor.call? roles n = (s.references roles)[n]?) ∧
      ∀ m n, (s.cursor.after roles m).call? roles n = (s.references roles)[m + n]?) ∧
    ∀ (g : Scope) (entry : SectionIndex) (n : Nat), ∀ f ∈ (g.stateAfter entry n).stack,
      ∃ s, g.Resumes (g.readBefore entry n) f s ∧
        ∀ m, f.cursor.call? g.roles m =
          (s.references g.roles)[Scope.countAt (g.readBefore entry n) f.sectionIndex + m]? := by
  refine ⟨fun roles s => ⟨s.references_eq_flatMap roles, ?_, s.call?_cursor_after roles⟩, ?_⟩
  · intro n
    rw [ReferenceCursor.call?_eq, Section.toList_cursor]
  · intro g entry n f hf
    obtain ⟨s, hs⟩ := (Scope.passes_stateAfter g entry n).resumes f hf
    exact ⟨s, hs, hs.call?_eq⟩

/-- A cross-reference table that asks for components. -/
def referenceTable (keys : List String) : Table where
  schema := .crossReferences TableRoles.standardCrossReferenceTable
  rows := keys.map fun key => ⟨[.string "Component", .string key], .unknown⟩

/-- A table that defines components. -/
def componentTable (keys : List String) : Table where
  schema := ⟨"Component", [], true⟩
  rows := keys.map fun key => ⟨[.string key], .unknown⟩

/-- A product with its references in two tables out of six. -/
def scattered : Section where
  id := "main"
  kind := .product
  tables := [referenceTable [], componentTable ["m"], referenceTable ["x", "lost"],
    referenceTable [], componentTable [], referenceTable ["y"]]
  location := .unknown

/-- The product with a fragment that it needs and that refers back to it. -/
def scatteredScope : Scope :=
  let sections := #[scattered, ⟨"back", .fragment, [componentTable ["x"], referenceTable ["m"]],
    .unknown⟩]
  ⟨sections, (survey sections false .unknown ∅).1.symbols, .standard, false⟩

/-- The search breaks off in the middle of a table, and goes on there. -/
theorem cursors_read_in_order_scattered :
    let f : Frame := ⟨0, ⟨(referenceTable ["lost"]).rows,
      [referenceTable [], componentTable [], referenceTable ["y"]]⟩⟩
    let component (key : String) : Reference := ⟨"Component", key, .unknown⟩
    (List.range 5).map (scattered.cursor.call? .standard) =
        [some (component "x"), some (component "lost"), some (component "y"), none, none] ∧
      f ∈ (scatteredScope.stateAfter 0 2).stack ∧
      f.cursor = scattered.cursor.after .standard 1 ∧
      (List.range 3).map (f.cursor.call? .standard) =
        [some (component "lost"), some (component "y"), none] := by
  intro f component
  have hf : f ∈ (scatteredScope.stateAfter 0 2).stack := by decide +kernel
  obtain ⟨s, hs, hcalls⟩ := cursors_read_in_order.2 scatteredScope 0 2 f hf
  obtain rfl : scattered = s := Option.some.inj hs.section_eq
  have hcount : Scope.countAt (scatteredScope.readBefore 0 2) f.sectionIndex = 1 := by
    decide +kernel
  obtain ⟨-, hall, -⟩ := cursors_read_in_order.1 .standard scattered
  refine ⟨?_, hf, hcount ▸ hs.cursor_eq, ?_⟩
  · refine (List.map_congr_left fun n _ => hall n).trans ?_
    decide +kernel
  · refine (List.map_congr_left fun m _ => hcalls m).trans ?_
    rw [hcount]
    decide +kernel

end InstallerLinker
