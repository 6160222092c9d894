/-
  Installer linker — what it means to do without media.

  A search for a merge module passes over the references into media tables.  It is
  the search for any other output over sections that have no such references: the
  one reads them and stays where it is, the other never comes upon them.

  * `Section.withoutMedia` takes the references to media out of a section, and
    `references_withoutMedia` says which of its references are left;
  * `Scope.Thins` is the simulation: what was found is the same, and the frames
    differ by references to media only.  `Thins.follow` is its step along a reference
    that is followed, and `Thins.run_eq` carries it to the end;
  * `Scope.reachFrom_mergeModule` compares the searches for the two kinds of output.
-/
import InstallerLinker.Proofs.Reach.Dependence
import InstallerLinker.Proofs.Reach.Exactness
import InstallerLinker.Proofs.Reach.Recursion
import InstallerLinker.Survey

namespace InstallerLinker

/-! ## Sections without references to media -/

/-- The table without the rows that refer to media, if it holds references. -/
def Table.withoutMedia (roles : TableRoles) (t : Table) : Table :=
  if roles.isCrossReference t.name then
    { t with rows := t.rows.filter fun row => !roles.isMedia (row.fieldText 0) }
  else t

/-- The section without references to media. -/
def Section.withoutMedia (roles : TableRoles) (s : Section) : Section :=
  { s with tables := s.tables.map (Table.withoutMedia roles) }

section
variable (roles : TableRoles)

theorem Table.name_withoutMedia (t : Table) : (t.withoutMedia roles).name = t.name := by
  unfold withoutMedia
  split <;> rfl

theorem crossReferenceRows_withoutMedia (ts : List Table) :
    crossReferenceRows roles (ts.map (Table.withoutMedia roles)) =
      (crossReferenceRows roles ts).filter fun row => !roles.isMedia (row.fieldText 0) := by
  induction ts with
  | nil => rfl
  | cons t ts ih =>
    rw [List.map_cons, ReferenceCursor.crossReferenceRows_cons,
      ReferenceCursor.crossReferenceRows_cons, List.filter_append, ih, Table.name_withoutMedia]
    cases hcross : roles.isCrossReference t.name with
    | false => rfl
    | true => simp [Table.withoutMedia, hcross]

/-- The references that are left are those to other tables, in their order. -/
theorem Section.references_withoutMedia (s : Section) :
    (s.withoutMedia roles).references roles =
      (s.references roles).filter fun r => !roles.isMedia r.table := by
  rw [references, references, List.filter_map]
  exact congrArg _ (crossReferenceRows_withoutMedia roles s.tables)

end

/-! ## The two searches -/

namespace Scope

/-- The scope of a search for the given kind of output. -/
def building (g : Scope) (mergeModule : Bool) : Scope := { g with mergeModule := mergeModule }

/-- The scope in which no section refers to media. -/
def withoutMedia (g : Scope) : Scope :=
  { g with sections := g.sections.map (Section.withoutMedia g.roles) }

variable {g : Scope}

theorem getElem?_withoutMedia (i : SectionIndex) :
    g.withoutMedia.sections[i]? = (g.sections[i]?).map (Section.withoutMedia g.roles) :=
  Array.getElem?_map

theorem skips_building_true (r : Reference) : (g.building true).skips r = g.roles.isMedia r.table :=
  rfl

/-- The frame `f'` has still to read what `f` has, references to media apart. -/
structure ThinsFrame (g : Scope) (f f' : Frame) : Prop where
  sectionIndex : f'.sectionIndex = f.sectionIndex
  toList : f'.cursor.toList g.roles =
    (f.cursor.toList g.roles).filter fun r => !g.roles.isMedia r.table

/-- The same has been found, and each frame of `t'` has still to read what that of `t`
    has, references to media apart. -/
structure Thins (g : Scope) (t t' : Traversal) : Prop where
  reach : t'.reach = t.reach
  stack : List.Forall₂ g.ThinsFrame t.stack t'.stack

namespace Thins
variable {t t' : Traversal}

theorem refer (h : g.Thins t t') (k : SymbolIndex) :
    g.Thins (Scope.refer t k) (Scope.refer t' k) := by
  obtain ⟨reach, stack⟩ := t
  obtain ⟨reach', stack'⟩ := t'
  obtain ⟨rfl, hstack⟩ := h
  exact ⟨rfl, hstack⟩

theorem dangle (h : g.Thins t t') (i : SectionIndex) (r : Reference) :
    g.Thins (Scope.dangle t i r) (Scope.dangle t' i r) := by
  obtain ⟨reach, stack⟩ := t
  obtain ⟨reach', stack'⟩ := t'
  obtain ⟨rfl, hstack⟩ := h
  exact ⟨rfl, hstack⟩

theorem visit (h : g.Thins t t') (i : SectionIndex) :
    g.Thins ((g.building true).visit t i) ((g.withoutMedia.building false).visit t' i) := by
  have hsections : (g.withoutMedia.building false).sections[i]? =
      ((g.building true).sections[i]?).map (Section.withoutMedia g.roles) :=
    getElem?_withoutMedia i
  rcases visit_cases (g := g.building true) t i with ⟨hold, hfree⟩ | ⟨s, hs, hfree, hnew⟩
  · -- the section has been visited, or there is none
    rcases visit_cases (g := g.withoutMedia.building false) t' i with
      ⟨hold', -⟩ | ⟨s', hs', hfree', -⟩
    · rw [hold, hold']
      exact h
    · rw [hsections, Option.map_eq_some_iff] at hs'
      obtain ⟨s, hs, rfl⟩ := hs'
      rw [h.reach, hfree (Array.getElem?_eq_some_iff.1 hs).1] at hfree'
      cases hfree'
  · rcases visit_cases (g := g.withoutMedia.building false) t' i with
      ⟨-, hfree'⟩ | ⟨s', hs', -, hnew'⟩
    · rw [hs, Option.map_some] at hsections
      have hvisited := hfree' (Array.getElem?_eq_some_iff.1 hsections).1
      rw [h.reach, hfree] at hvisited
      cases hvisited
    · rw [hsections, hs, Option.map_some, Option.some.injEq] at hs'
      rw [hnew, hnew', h.reach, ← hs']
      exact ⟨rfl, .cons ⟨rfl, Section.references_withoutMedia g.roles s⟩ h.stack⟩

/-- A reference to another table is followed in both searches. -/
theorem follow (h : g.Thins t t') (i : SectionIndex) {r : Reference}
    (hmedia : g.roles.isMedia r.table = false) :
    g.Thins ((g.building true).follow t i r) ((g.withoutMedia.building false).follow t' i r) := by
  have hskip : (g.building true).skips r = false := hmedia
  cases hk : g.symbols.lookup r.targetName with
  | none =>
    rw [follow_of_lookup_eq_none hskip hk,
      follow_of_lookup_eq_none (g := g.withoutMedia.building false) rfl hk]
    exact h.dangle i r
  | some k =>
    rw [follow_of_lookup_eq_some hskip hk,
      follow_of_lookup_eq_some (g := g.withoutMedia.building false) rfl hk]
    have hsymbols : (g.withoutMedia.building false).symbols = (g.building true).symbols := rfl
    rw [hsymbols]
    cases (g.building true).symbols.get? k with
    | none => exact h.refer k
    | some s => exact (h.refer k).visit s.owner.sectionIndex

/-- The one search finds what the other does: where it passes over a reference, the
    other stays where it is. -/
theorem run_eq (h : g.Thins t t') :
    (g.building true).run t = (g.withoutMedia.building false).run t' := by
  induction t using Scope.run.induct (g := g.building true) generalizing t' with
  | case1 reach =>
    obtain ⟨reach', stack'⟩ := t'
    obtain ⟨rfl, hstack⟩ := h
    cases hstack
    rw [run, run]
  | case2 reach f below ih =>
    obtain ⟨reach', stack'⟩ := t'
    obtain ⟨rfl, hstack⟩ := h
    cases hstack with
    | @cons _ f' _ below' hframe hbelow =>
    obtain ⟨i, cursor⟩ := f'
    obtain ⟨rfl, hlist⟩ := hframe
    dsimp only at ih hlist
    rw [run]
    unfold advance at ih ⊢
    rw [show (g.building true).roles = g.roles from rfl] at ih ⊢
    cases hn : f.cursor.next? g.roles with
    | none =>
      -- both searches leave the section
      rw [hn] at ih
      rw [ReferenceCursor.toList_of_next?_eq_none hn] at hlist
      rw [run_of_toList_eq_nil (g := g.withoutMedia.building false) hlist]
      exact ih ⟨rfl, hbelow⟩
    | some p =>
      obtain ⟨r, c⟩ := p
      rw [hn] at ih
      dsimp only at ih ⊢
      rw [ReferenceCursor.toList_of_next?_eq_some hn] at hlist
      cases hmedia : g.roles.isMedia r.table with
      | true =>
        rw [follow_of_skips (g := g.building true) hmedia] at ih ⊢
        rw [List.filter_cons_of_neg (by simp [hmedia])] at hlist
        exact ih ⟨rfl, .cons ⟨rfl, hlist⟩ hbelow⟩
      | false =>
        rw [List.filter_cons_of_pos (by simp [hmedia])] at hlist
        obtain ⟨c', hc', hrun⟩ :=
          exists_run_of_toList_eq_cons (g := g.withoutMedia.building false) hlist reach' below'
        have hthins : g.Thins ⟨reach', ⟨f.sectionIndex, c⟩ :: below⟩
            ⟨reach', ⟨f.sectionIndex, c'⟩ :: below'⟩ := ⟨rfl, .cons ⟨rfl, hc'⟩ hbelow⟩
        rw [hrun]
        exact ih (hthins.follow f.sectionIndex hmedia)

end Thins

/-- The search for a merge module is that for any other output where no section refers
    to media. -/
theorem reachFrom_building_true (g : Scope) (entry : SectionIndex) :
    (g.building true).reachFrom entry = (g.withoutMedia.building false).reachFrom entry := by
  have hsize : (g.withoutMedia.building false).sections.size = (g.building true).sections.size :=
    Array.size_map
  have hstart : g.Thins ⟨.empty g.sections.size g.symbols.size, []⟩
      ⟨.empty g.sections.size g.symbols.size, []⟩ := ⟨rfl, .nil⟩
  rw [reachFrom, reachFrom, start, start, hsize]
  exact (hstart.visit entry).run_eq

theorem includes_of_building_true {entry i : SectionIndex}
    (h : ((g.building true).reachFrom entry).includes i = true) :
    ((g.building false).reachFrom entry).includes i = true := by
  rw [includes_reachFrom_iff] at h ⊢
  refine ReferenceGraph.Reaches.mono ?_ (fun i j hop => ?_) h
  · exact le_rfl
  · obtain ⟨s, hs, row, ⟨hrow, -⟩, howner⟩ := hop
    exact ⟨s, hs, row, ⟨hrow, fun hmedia => Bool.noConfusion hmedia.1⟩, howner⟩

theorem table_notMem_of_building_true {entry : SectionIndex} {d : DanglingReference}
    (h : d ∈ ((g.building true).reachFrom entry).dangling.toList) :
    d.reference.table ∉ g.roles.mediaTables := by
  obtain ⟨-, -, hdangles⟩ := mem_dangling_iff.1 h
  rw [dangles, Bool.and_eq_true, Bool.not_eq_true', skips_building_true, TableRoles.isMedia,
    ← Bool.not_eq_true, List.contains_iff_mem] at hdangles
  exact hdangles.1

/-- **A merge module is linked as if no section referred to media.**  Over any sections,
    symbols and roles, the search for a merge module visits the sections, takes note of
    the symbols and meets the dangling references that the search for other output does
    once the references to media have been taken out of the sections, in the same order.
    So it visits no section that the latter does not visit over the sections as they are,
    and finds no reference to media dangling.  The search for other output takes no heed
    of which tables are media tables. -/
theorem reachFrom_mergeModule (sections : Array Section) (symbols : SymbolTable)
    (roles : TableRoles) (entry : SectionIndex) :
    let merged := (Scope.mk sections symbols roles true).reachFrom entry
    let full := (Scope.mk sections symbols roles false).reachFrom entry
    merged = (Scope.mk (sections.map (Section.withoutMedia roles)) symbols roles false).reachFrom
        entry ∧
      merged.sections.toList ⊆ full.sections.toList ∧
      (∀ i, merged.includes i = true → full.includes i = true) ∧
      (∀ d ∈ merged.dangling.toList, d.reference.table ∉ roles.mediaTables) ∧
      ∀ mediaTables, (Scope.mk sections symbols { roles with mediaTables := mediaTables }
        false).reachFrom entry = full := by
  intro merged full
  let g : Scope := ⟨sections, symbols, roles, true⟩
  have hincludes : ∀ i, merged.includes i = true → full.includes i = true :=
    fun _ => includes_of_building_true (g := g)
  refine ⟨g.reachFrom_building_true entry, fun i hi => ?_, hincludes,
    fun _ => table_notMem_of_building_true (g := g), fun mediaTables => ?_⟩
  · rw [(consistent_reachFrom _ entry).mem_iff] at hi ⊢
    exact hincludes i hi
  · refine Alike.reachFrom_eq ?_ entry
    exact ⟨rfl, rfl, fun _ => rfl, rfl, fun _ => rfl, fun _ => rfl⟩

/-- A section that refers to some rows of other sections and has others, each given by
    its table and its key. -/
def keyedSection (id : String) (kind : SectionKind) (references rows : List (String × String)) :
    Section where
  id := id
  kind := kind
  tables :=
    ⟨.crossReferences TableRoles.standardCrossReferenceTable,
        references.map fun p => ⟨[.string p.1, .string p.2], .unknown⟩⟩ ::
      rows.map fun p => ⟨⟨p.1, [], true⟩, [⟨[.string p.2], .unknown⟩]⟩
  location := .unknown

/-- A product that refers to a disk at once, and by way of a component. -/
def withDisk : Array Section :=
  #[keyedSection "main" .product [("Media", "1"), ("Component", "x"), ("Media", "lost")] [],
    keyedSection "disk" .fragment [] [("Media", "1"), ("Component", "y")],
    keyedSection "left" .fragment [("Component", "y")] [("Component", "x")]]

/-- The disk is still reached where a merge module is built, but later. -/
theorem reachFrom_mergeModule_withDisk :
    let symbols := (survey withDisk false .unknown ∅).1.symbols
    let merged := (Scope.mk withDisk symbols .standard true).reachFrom 0
    let full := (Scope.mk withDisk symbols .standard false).reachFrom 0
    merged.sections.toList = [0, 2, 1] ∧ full.sections.toList = [0, 1, 2] ∧
      merged.dangling = #[] ∧ full.dangling = #[⟨0, ⟨"Media", "lost", .unknown⟩⟩] ∧
      merged = (Scope.mk (withDisk.map (Section.withoutMedia .standard)) symbols .standard
        false).reachFrom 0 ∧ full.includes 1 = true := by
  intro symbols merged full
  obtain ⟨hmerged, -, hincludes, -⟩ := reachFrom_mergeModule withDisk symbols .standard 0
  refine ⟨?_, ?_, ?_, ?_, hmerged, hincludes 1 ?_⟩
  all_goals decide +kernel

end Scope

end InstallerLinker
