/-
  Installer linker — what a search depends on.

  A search reads less than its scope holds: of the symbols only where a name is found
  and which definition owns it, of the roles only which table holds the references and
  which references are passed over.

  * `Scope.Alike` says that two scopes agree on that;
  * `Alike.reachFrom_eq`: then a search finds the same in both.
-/
import InstallerLinker.Proofs.Reach.Hops

namespace InstallerLinker

theorem ReferenceCursor.read_congr {roles roles' : TableRoles}
    (h : roles.crossReferenceTable = roles'.crossReferenceTable) (rows : List Row)
    (tables : List Table) : read roles rows tables = read roles' rows tables := by
  fun_induction read roles rows tables with
  | case1 => rw [read]
  | case2 => rw [read]
  | case3 t tables ih => rw [ih, read, TableRoles.isCrossReference, TableRoles.isCrossReference, h]

namespace Scope

/-- The two scopes agree on what a search reads. -/
structure Alike (g g' : Scope) : Prop where
  sections : g.sections = g'.sections
  crossReferenceTable : g.roles.crossReferenceTable = g'.roles.crossReferenceTable
  skips : ∀ r, g.skips r = g'.skips r
  size : g.symbols.size = g'.symbols.size
  lookup : ∀ name, g.symbols.lookup name = g'.symbols.lookup name
  owner : ∀ k, (g.symbols.get? k).map (·.owner) = (g'.symbols.get? k).map (·.owner)

namespace Alike
variable {g g' : Scope} (h : g.Alike g')
include h

theorem visit_eq (t : Traversal) (i : SectionIndex) : g.visit t i = g'.visit t i := by
  unfold visit
  rw [h.sections]

theorem follow_eq (t : Traversal) (i : SectionIndex) (r : Reference) :
    g.follow t i r = g'.follow t i r := by
  unfold follow
  rw [h.skips, h.lookup]
  cases hskip : g'.skips r with
  | true => rfl
  | false =>
    cases g'.symbols.lookup r.targetName with
    | none => rfl
    | some k =>
      have howner := h.owner k
      cases hs : g.symbols.get? k with
      | none =>
        rw [hs, Option.map_none, eq_comm, Option.map_eq_none_iff] at howner
        simp only [hs, howner]
      | some s =>
        rw [hs, Option.map_some, eq_comm, Option.map_eq_some_iff] at howner
        obtain ⟨s', hs', howner⟩ := howner
        simp only [hs, hs', howner, h.visit_eq]

theorem advance_eq (reach : Reach) (f : Frame) (below : List Frame) :
    g.advance reach f below = g'.advance reach f below := by
  unfold advance
  rw [ReferenceCursor.next?, ReferenceCursor.read_congr h.crossReferenceTable,
    ← ReferenceCursor.next?]
  cases f.cursor.next? g'.roles with
  | none => rfl
  | some p => exact h.follow_eq _ _ _

theorem run_eq (t : Traversal) : g.run t = g'.run t := by
  induction t using Scope.run.induct (g := g) with
  | case1 reach => rw [run, run]
  | case2 reach f below ih => rw [run, ih, h.advance_eq, ← run]

/-- Searches that read the same find the same. -/
theorem reachFrom_eq (entry : SectionIndex) : g.reachFrom entry = g'.reachFrom entry := by
  rw [reachFrom, reachFrom, start, start, h.run_eq, h.visit_eq, h.sections, h.size]

end Alike

end Scope

end InstallerLinker
