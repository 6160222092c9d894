/-
  Installer linker — what becomes of each reference.

  A section may be reached in many ways, and a search leaves its references and
  comes back to them.  Yet each reference of a section visited is read once, and it
  is either passed over, or taken note of as dangling, or leads to its symbol being
  taken note of.

  * `Section.followedRows` are the rows of a section that are followed, in order;
  * `Passes.filter_dangling` gives the dangling references of one section, and
    `Passes.noted` the symbols that are taken note of, each in terms of the references
    read;
  * `Scope.Accounts` says what a search finds in terms of the rows of the sections
    visited, and `Scope.accounts_reachFrom` that every search does so.
-/
import InstallerLinker.Proofs.Reach.Exactness

namespace InstallerLinker

/-- The rows of a section that are references to be followed, in table and row
    order. -/
def Section.followedRows (s : Section) (roles : TableRoles) (mergeModule : Bool) : List Row :=
  (crossReferenceRows roles s.tables).filter fun row =>
    !(mergeModule && roles.isMedia (row.fieldText 0))

namespace Scope

variable {g : Scope} {entry : SectionIndex} {read : List (SectionIndex × Reference)}
  {t : Traversal}

/-! ## Rows -/

/-- A row of a section visited is followed and asks for the given name. -/
def AsksFor (g : Scope) (reach : Reach) (name : String) : Prop :=
  ∃ i s, reach.includes i = true ∧ g.sections[i]? = some s ∧
    ∃ row ∈ s.followedRows g.roles g.mergeModule, (Reference.ofRow row).targetName = name

theorem map_followedRows (g : Scope) (s : Section) :
    (s.followedRows g.roles g.mergeModule).map .ofRow =
      (s.references g.roles).filter fun r => !g.skips r := by
  rw [Section.references, List.filter_map]
  rfl

/-- The references of a section that lead nowhere are those of its rows that are
    followed and ask for a name that is not defined. -/
theorem filter_dangles_references (g : Scope) (s : Section) :
    (s.references g.roles).filter g.dangles =
      ((s.followedRows g.roles g.mergeModule).filter fun row =>
        (g.symbols.lookup (Reference.ofRow row).targetName).isNone).map .ofRow := by
  have hdangles : g.dangles = fun r => (g.symbols.lookup r.targetName).isNone && !g.skips r := by
    funext r
    exact Bool.and_comm _ _
  rw [hdangles, ← List.filter_filter, ← map_followedRows, List.filter_map]
  rfl

theorem asksFor_iff {reach : Reach} {name : String} :
    g.AsksFor reach name ↔ ∃ i r, reach.includes i = true ∧ r ∈ g.referencesAt i ∧
      g.skips r = false ∧ r.targetName = name := by
  have hrows : ∀ s : Section, (∃ row ∈ s.followedRows g.roles g.mergeModule,
      (Reference.ofRow row).targetName = name) ↔
        ∃ r ∈ s.references g.roles, g.skips r = false ∧ r.targetName = name := by
    intro s
    have hmem := congrArg (∃ r ∈ ·, r.targetName = name) (map_followedRows g s)
    simpa [and_assoc] using hmem
  constructor
  · rintro ⟨i, s, hi, hs, hrow⟩
    obtain ⟨r, hr, hskip, hname⟩ := (hrows s).1 hrow
    refine ⟨i, r, hi, ?_, hskip, hname⟩
    rwa [referencesAt, hs]
  · rintro ⟨i, r, hi, hr, hskip, hname⟩
    obtain ⟨s, hs⟩ : ∃ s, g.sections[i]? = some s :=
      ⟨_, Array.getElem?_eq_getElem (lt_size_of_mem_referencesAt hr)⟩
    rw [referencesAt, hs] at hr
    exact ⟨i, s, hi, hs, (hrows s).2 ⟨r, hr, hskip, hname⟩⟩

/-! ## What comes of the references read -/

/-- The dangling references of one section are found among those read of it. -/
theorem Passes.filter_dangling (h : g.Passes entry read t) (i : SectionIndex) :
    (t.reach.dangling.toList.filter (·.sectionIndex = i)).map (·.reference) =
      (readAt read i).filter g.dangles := by
  rw [h.dangling, readAt, List.filter_map, List.filter_map, List.map_map, List.filter_comm]
  rfl

/-- The symbols taken note of are those that the references read ask for. -/
structure Noted (g : Scope) (read : List (SectionIndex × Reference)) (symbols : IndexSet) :
    Prop where
  consistent : symbols.Consistent
  capacity : symbols.capacity = g.symbols.size
  contains_iff : ∀ k, symbols.contains k = true ↔
    k < g.symbols.size ∧ ∃ p ∈ read, g.askedSymbol? p.2 = some k

theorem Noted.follow (h : g.Noted read t.reach.symbols) (i : SectionIndex) (r : Reference) :
    g.Noted (read ++ [(i, r)]) (g.follow t i r).reach.symbols := by
  have hread : ∀ k, (∃ p ∈ read ++ [(i, r)], g.askedSymbol? p.2 = some k) ↔
      (∃ p ∈ read, g.askedSymbol? p.2 = some k) ∨ g.askedSymbol? r = some k := by
    intro k
    simp [or_and_right, exists_or]
  rw [symbols_follow]
  cases hr : g.askedSymbol? r with
  | none =>
    refine ⟨h.consistent, h.capacity, fun k => ?_⟩
    rw [h.contains_iff, hread, hr]
    simp
  | some m =>
    refine ⟨h.consistent.insert m, (IndexSet.capacity_insert _ _).trans h.capacity, fun k => ?_⟩
    rw [IndexSet.contains_insert_iff, h.contains_iff, hread, hr, h.capacity, Option.some.injEq]
    constructor
    · rintro (⟨hk, hasked⟩ | ⟨rfl, hk⟩)
      · exact ⟨hk, Or.inl hasked⟩
      · exact ⟨hk, Or.inr rfl⟩
    · rintro ⟨hk, hasked | rfl⟩
      · exact Or.inl ⟨hk, hasked⟩
      · exact Or.inr ⟨rfl, hk⟩

theorem Passes.noted (h : g.Passes entry read t) : g.Noted read t.reach.symbols := by
  induction h with
  | start =>
    rw [Scope.start, symbols_visit]
    exact ⟨IndexSet.consistent_empty _, IndexSet.capacity_empty _, fun k => by simp [Reach.empty]⟩
  | leave _ _ ih => exact ih
  | @follow read reach f below r cursor _ _ ih =>
    exact Noted.follow (t := ⟨reach, ⟨f.sectionIndex, cursor⟩ :: below⟩) ih _ _

/-! ## What a search finds -/

/-- What a search from `entry` finds says of each reference that is to be followed
    what became of it. -/
structure Accounts (g : Scope) (entry : SectionIndex) (reach : Reach) : Prop where
  /-- The dangling references stand in the order in which the search reads them. -/
  inOrder : ∃ read, g.Passes entry read ⟨reach, []⟩ ∧
    reach.dangling.toList = (read.filter fun p => g.dangles p.2).map fun p => ⟨p.1, p.2⟩
  /-- Those of a section visited are its rows that ask for an undefined name. -/
  dangling : ∀ i s, g.sections[i]? = some s → reach.includes i = true →
    (reach.dangling.toList.filter (·.sectionIndex = i)).map (·.reference) =
      ((s.followedRows g.roles g.mergeModule).filter fun row =>
        (g.symbols.lookup (Reference.ofRow row).targetName).isNone).map .ofRow
  /-- Other sections have none. -/
  visited : ∀ d ∈ reach.dangling.toList, reach.includes d.sectionIndex = true
  nodup_symbols : reach.symbols.toList.Nodup
  /-- The symbols are those of the table that some row of a section visited asks for,
      whoever owns them. -/
  mem_symbols_iff : ∀ k, k ∈ reach.symbols.toList ↔
    k < g.symbols.size ∧ ∃ name, g.AsksFor reach name ∧ g.symbols.lookup name = some k
  refersTo_iff : ∀ k, reach.refersTo k = true ↔ k ∈ reach.symbols.toList

theorem askedSymbol?_eq_some_iff {r : Reference} {k : SymbolIndex} :
    g.askedSymbol? r = some k ↔ g.skips r = false ∧ g.symbols.lookup r.targetName = some k := by
  cases hskip : g.skips r <;> simp [askedSymbol?, hskip]

theorem accounts_reachFrom (g : Scope) (entry : SectionIndex) :
    g.Accounts entry (g.reachFrom entry) := by
  obtain ⟨read, h⟩ := exists_passes_reachFrom g entry
  have hnoted := h.noted
  refine ⟨⟨read, h, h.dangling⟩, ?_, ?_, hnoted.consistent.nodup, ?_, ?_⟩
  · intro i s hs hi
    rw [h.filter_dangling, h.readAt_eq, if_pos hi, referencesAt, hs]
    exact filter_dangles_references g s
  · intro d hd
    exact includes_reachFrom_iff.2 (mem_dangling_iff.1 hd).1
  · intro k
    rw [hnoted.consistent.mem_iff, hnoted.contains_iff]
    refine and_congr_right fun _ => ?_
    constructor
    · rintro ⟨⟨i, r⟩, hr, hk⟩
      obtain ⟨hskip, hk⟩ := askedSymbol?_eq_some_iff.1 hk
      obtain ⟨hi, hr⟩ := h.mem_read_iff.1 hr
      exact ⟨_, asksFor_iff.2 ⟨i, r, hi, hr, hskip, rfl⟩, hk⟩
    · rintro ⟨name, hasks, hk⟩
      obtain ⟨i, r, hi, hr, hskip, rfl⟩ := asksFor_iff.1 hasks
      exact ⟨(i, r), h.mem_read_iff.2 ⟨hi, hr⟩, askedSymbol?_eq_some_iff.2 ⟨hskip, hk⟩⟩
  · intro k
    rw [hnoted.consistent.mem_iff]
    rfl

end Scope

end InstallerLinker
