/-
  Installer linker — which sections refer to which.

  Said without a search: a section hops to another if one of its references is
  followed and names a symbol that the other owns, and a section is reached if
  some number of hops leads to it.

  * `Section.Refers` holds of the rows that are references to be followed;
  * `ReferenceGraph` collects what hops depend on, where `owner` tells which
    definition owns a name; `Hop` and `Reaches` are the relations;
  * `Scope.graph` is the graph that a search goes through, in which the symbol
    table tells the owners, and `Scope.LeadsTo` says the same of references as
    `Hop` says of rows (`hop_iff`).
-/
import Mathlib.Logic.Relation
import InstallerLinker.Reach

namespace InstallerLinker

/-- A row of the section that is a reference to be followed: it stands in a
    table of cross references and is no media reference in a merge module. -/
def Section.Refers (s : Section) (roles : TableRoles) (mergeModule : Bool) (row : Row) : Prop :=
  (∃ t ∈ s.tables, t.name = roles.crossReferenceTable ∧ row ∈ t.rows) ∧
    ¬ (mergeModule = true ∧ row.fieldText 0 ∈ roles.mediaTables)

/-- What the references between sections depend on. -/
structure ReferenceGraph where
  sections : Array Section
  /-- The definition that owns the symbol of a name. -/
  owner : String → Option Definition
  roles : TableRoles
  mergeModule : Bool

namespace ReferenceGraph
variable (G : ReferenceGraph)

/-- Section `i` refers to a symbol that section `j` owns. -/
def Hop (i j : SectionIndex) : Prop :=
  ∃ s, G.sections[i]? = some s ∧ ∃ row, s.Refers G.roles G.mergeModule row ∧
    ∃ d, G.owner (Reference.ofRow row).targetName = some d ∧ d.sectionIndex = j ∧
      j < G.sections.size

/-- Some number of hops lead from the entry, if there is such a section, to
    section `i`. -/
def Reaches (entry i : SectionIndex) : Prop :=
  entry < G.sections.size ∧ Relation.ReflTransGen G.Hop entry i

variable {G}

theorem Reaches.lt_size {entry i : SectionIndex} (h : G.Reaches entry i) : i < G.sections.size := by
  obtain ⟨hentry, h⟩ := h
  cases h with
  | refl => exact hentry
  | tail _ h => obtain ⟨_, _, _, _, _, _, _, hlt⟩ := h; exact hlt

theorem Reaches.tail {entry i j : SectionIndex} (h : G.Reaches entry i) (hop : G.Hop i j) :
    G.Reaches entry j :=
  ⟨h.1, h.2.tail hop⟩

/-- Where hops are kept and no section is left out, all that was reached still is. -/
theorem Reaches.mono {G' : ReferenceGraph} (hsize : G.sections.size ≤ G'.sections.size)
    (hop : ∀ i j, G.Hop i j → G'.Hop i j) {entry i : SectionIndex} (h : G.Reaches entry i) :
    G'.Reaches entry i :=
  ⟨Nat.lt_of_lt_of_le h.1 hsize, Relation.ReflTransGen.mono hop _ _ h.2⟩

/-- Whatever holds the entry and all that its members hop to holds all that is
    reached. -/
theorem Reaches.mem_of_closed {P : SectionIndex → Prop} {entry i : SectionIndex}
    (h : G.Reaches entry i) (hentry : P entry) (hop : ∀ i j, P i → G.Hop i j → P j) : P i := by
  obtain ⟨-, h⟩ := h
  induction h with
  | refl => exact hentry
  | tail _ hij ih => exact hop _ _ ih hij

end ReferenceGraph

/-! ## Rows and references -/

theorem mem_references_iff {s : Section} {roles : TableRoles} {r : Reference} :
    r ∈ s.references roles ↔
      ∃ t ∈ s.tables, t.name = roles.crossReferenceTable ∧ ∃ row ∈ t.rows, Reference.ofRow row = r := by
  simp only [Section.references, crossReferenceRows, List.mem_map, List.mem_flatMap, List.mem_filter,
    TableRoles.isCrossReference, beq_iff_eq]
  constructor
  · rintro ⟨row, ⟨t, ⟨ht, hn⟩, hrow⟩, rfl⟩
    exact ⟨t, ht, hn.symm, row, hrow, rfl⟩
  · rintro ⟨t, ht, hn, row, hrow, rfl⟩
    exact ⟨row, ⟨t, ⟨ht, hn.symm⟩, hrow⟩, rfl⟩

namespace Scope
variable (g : Scope)

/-- The definition that owns the symbol of a name. -/
def ownerOf (name : String) : Option Definition := (g.symbols.find? name).map (·.owner)

/-- The graph that the search goes through. -/
def graph : ReferenceGraph := ⟨g.sections, g.ownerOf, g.roles, g.mergeModule⟩

/-- The reference leads to section `j`. -/
def LeadsTo (r : Reference) (j : SectionIndex) : Prop :=
  g.skips r = false ∧ ∃ d, g.ownerOf r.targetName = some d ∧ d.sectionIndex = j ∧ j < g.sections.size

/-- The references of section `i`; none if there is no such section. -/
def referencesAt (i : SectionIndex) : List Reference :=
  match g.sections[i]? with
  | none => []
  | some s => s.references g.roles

variable {g}

theorem lt_size_of_mem_referencesAt {i : SectionIndex} {r : Reference}
    (h : r ∈ g.referencesAt i) : i < g.sections.size := by
  refine Nat.lt_of_not_le fun hle => ?_
  rw [referencesAt, Array.getElem?_eq_none hle] at h
  exact absurd h List.not_mem_nil

theorem LeadsTo.lt_size {r : Reference} {j : SectionIndex} (h : g.LeadsTo r j) :
    j < g.sections.size := by
  obtain ⟨-, d, -, -, hlt⟩ := h
  exact hlt

/-- A reference leads to one section at most. -/
theorem LeadsTo.unique {r : Reference} {j k : SectionIndex} (hj : g.LeadsTo r j)
    (hk : g.LeadsTo r k) : j = k := by
  obtain ⟨-, d, hd, rfl, -⟩ := hj
  obtain ⟨-, d', hd', rfl, -⟩ := hk
  rw [hd] at hd'
  cases hd'
  rfl

theorem skips_ofRow_eq_false_iff {row : Row} :
    g.skips (.ofRow row) = false ↔ ¬ (g.mergeModule = true ∧ row.fieldText 0 ∈ g.roles.mediaTables) := by
  rw [skips, ← Bool.not_eq_true, Bool.and_eq_true, TableRoles.isMedia, List.contains_iff_mem]
  rfl

theorem exists_refers_iff {s : Section} {r : Reference} :
    (∃ row, s.Refers g.roles g.mergeModule row ∧ Reference.ofRow row = r) ↔
      r ∈ s.references g.roles ∧ g.skips r = false := by
  rw [mem_references_iff]
  constructor
  · rintro ⟨row, ⟨⟨t, ht, hn, hrow⟩, hskip⟩, rfl⟩
    exact ⟨⟨t, ht, hn, row, hrow, rfl⟩, skips_ofRow_eq_false_iff.2 hskip⟩
  · rintro ⟨⟨t, ht, hn, row, hrow, rfl⟩, hskip⟩
    exact ⟨row, ⟨⟨t, ht, hn, hrow⟩, skips_ofRow_eq_false_iff.1 hskip⟩, rfl⟩

theorem hop_iff {i j : SectionIndex} : g.graph.Hop i j ↔ ∃ r ∈ g.referencesAt i, g.LeadsTo r j := by
  constructor
  · rintro ⟨s, hs, row, hrow, hd⟩
    obtain ⟨hr, hskip⟩ := exists_refers_iff.1 ⟨row, hrow, rfl⟩
    refine ⟨.ofRow row, ?_, hskip, hd⟩
    rw [referencesAt, show g.sections[i]? = some s from hs]
    exact hr
  · rintro ⟨r, hr, hskip, hd⟩
    rw [referencesAt] at hr
    cases hs : g.sections[i]? with
    | none => rw [hs] at hr; exact absurd hr List.not_mem_nil
    | some s =>
      rw [hs] at hr
      obtain ⟨row, hrow, rfl⟩ := exists_refers_iff.2 ⟨hr, hskip⟩
      exact ⟨s, hs, row, hrow, hd⟩

end Scope

end InstallerLinker
