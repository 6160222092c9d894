/-
  Installer linker — handles lead somewhere.

  Sections and symbols are known by bare positions, which do not tell what list they belong to.
  The table of a survey may be used in a search of other sections than those surveyed.  The
  positions that arise are nevertheless never out of range, and those that a link returns
  always lead to a section or a symbol.

  * `SymbolTable.define?` adds a definition, but fails where the name leads to no symbol, and
    `Records.defineAll?_eq_some` says that it does not;
  * `Linkage.Sound` says what can be relied on of the handles of a result, and
    `sound_of_link_eq_some` that it can be;
  * `handles_in_range` is the result.
-/
import InstallerLinker.Proofs.Growth
import InstallerLinker.Proofs.Link.Conflicts
import InstallerLinker.Proofs.Link.Selection
import InstallerLinker.Proofs.Reach.Bounds
import InstallerLinker.Proofs.Reach.References

namespace InstallerLinker

/-! ## The owners -/

namespace SymbolTable

/-- Add a definition; `none` if its name is in the index, but leads beyond the symbols. -/
def define? (allowIdentical : Bool) (t : SymbolTable) (d : Definition) :
    Option (SymbolTable × Option LinkIssue) :=
  match t.lookup d.name with
  | none => some (t.addOwner d, none)
  | some i =>
    (t.get? i).map fun s =>
      if allowIdentical && s.owner.row.isIdentical d.row then
        (t, some (.identicalDuplicateRow d.name d.location s.owner.location))
      else (t.addDuplicate i (!s.hasDuplicates) d, none)

/-- Add definitions, one after the other; `none` if one of them cannot be added. -/
def defineAll? (allowIdentical : Bool) (t : SymbolTable) (ds : List Definition) :
    Option SymbolTable :=
  ds.foldlM (fun t d => (t.define? allowIdentical d).map (·.1)) t

namespace Records
variable {allowIdentical : Bool} {t : SymbolTable} {earlier : List Definition}

/-- A name in the index leads to a symbol. -/
theorem define?_eq_some (h : t.Records allowIdentical earlier) (d : Definition) :
    t.define? allowIdentical d = some (t.define allowIdentical d) := by
  unfold define? SymbolTable.define
  cases hk : t.lookup d.name with
  | none => rfl
  | some k =>
    obtain ⟨s, hs, -⟩ := (h.lookup_iff _ _).1 hk
    simp only [hs, Option.map_some]

theorem defineAll?_eq_some (h : t.Records allowIdentical earlier) (ds : List Definition) :
    t.defineAll? allowIdentical ds = some (t.defineAll allowIdentical ds) := by
  induction ds generalizing t earlier with
  | nil => rfl
  | cons d ds ih =>
    rw [defineAll?, List.foldlM_cons, h.define?_eq_some]
    exact ih (h.define d)

end Records

end SymbolTable

/-! ## The handles of a result -/

/-- The handles of a result lead somewhere. -/
structure Linkage.Sound (l : Linkage) : Prop where
  /-- There is an entry, and it comes first. -/
  entrySection : ∃ s, l.entrySection = some s ∧ l.reachedSections.head? = some s
  /-- There is one section for each position visited. -/
  reachedSections : l.reachedSections.map some = l.reach.sections.toList.map (l.sections[·]?)
  /-- There is one symbol for each position noted. -/
  referencedSymbols : l.referencedSymbols.map some = l.reach.symbols.toList.map l.symbols.get?
  /-- There is one symbol for each position with duplicates. -/
  contestedSymbols :
    l.symbols.contestedSymbols.map some = l.symbols.contested.toList.map l.symbols.get?
  /-- Whatever the position, it is included if and only if it was visited. -/
  includes_iff : ∀ i, l.includes i = true ↔ i ∈ l.reach.sections.toList

theorem sound_of_link_eq_some {settings : LinkSettings} {sections : Array Section}
    {log : Log LinkIssue} {l : Linkage} (h : (link settings sections log).1 = some l) :
    l.Sound := by
  obtain ⟨rfl, hentry, hsymbols, hreach, -⟩ := of_link_eq_some h
  have hlt : l.entry < l.sections.size := (List.findIdx?_eq_some_iff_getElem.1 hentry).1
  obtain ⟨hincludes, hmem, -, later, hlater⟩ :=
    Scope.reachFrom_exact (settings.scope l.sections l.symbols l.entry) l.entry
  have haccounts := Scope.accounts_reachFrom (settings.scope l.sections l.symbols l.entry) l.entry
  rw [← hreach] at hincludes hmem hlater haccounts
  replace hlater : l.reach.sections.toList = l.entry :: later := hlater.trans (if_pos hlt)
  have hsection : ∀ i ∈ l.reach.sections.toList, ∃ s, l.sections[i]? = some s := fun i hi =>
    ⟨_, Array.getElem?_eq_getElem ((hincludes i).1 ((hmem i).1 hi)).1⟩
  have hsymbol : ∀ k ∈ l.reach.symbols.toList, ∃ s, l.symbols.get? k = some s := by
    intro k hk
    obtain ⟨-, name, -, hlookup⟩ := (haccounts.mem_symbols_iff k).1 hk
    obtain ⟨s, hs, -⟩ := (hsymbols.lookup_iff name k).1 hlookup
    exact ⟨s, hs⟩
  have hcontested : ∀ k ∈ l.symbols.contested.toList, ∃ s, l.symbols.get? k = some s := by
    intro k hk
    obtain ⟨s, hs, -⟩ := (hsymbols.mem_contested_iff k).1 hk
    exact ⟨s, hs⟩
  refine ⟨?_, map_some_filterMap hsection, map_some_filterMap hsymbol,
    map_some_filterMap hcontested, fun i => (hmem i).symm⟩
  obtain ⟨s, hs⟩ := hsection l.entry (hlater ▸ List.mem_cons_self ..)
  refine ⟨s, hs, ?_⟩
  rw [Linkage.reachedSections, hlater, List.filterMap_cons_some hs, List.head?_cons]

/-! ## The result -/

/-- **No handle is out of range.**  A survey never finds a name that leads beyond the symbols,
    and a search with its table never lacks a mark, whatever sections are searched, from where,
    with which roles, and for which kind of output.  The handles of a link lead somewhere. -/
theorem handles_in_range :
    (∀ (surveyed : Array Section) (allowIdentical : Bool) (expected : SectionKind)
        (log : Log LinkIssue) (symbols : SymbolTable),
      (survey surveyed allowIdentical expected log).1.symbols = symbols →
        (∅ : SymbolTable).defineAll? allowIdentical (definitionsOf surveyed.toList) =
          some symbols ∧
        ∀ (sections : Array Section) (roles : TableRoles) (mergeModule : Bool)
          (entry : SectionIndex),
          (Scope.mk sections symbols roles mergeModule).reachFrom? entry =
            some ((Scope.mk sections symbols roles mergeModule).reachFrom entry)) ∧
    ∀ (settings : LinkSettings) (sections : Array Section) (log : Log LinkIssue) (l : Linkage),
      (link settings sections log).1 = some l → l.Sound := by
  refine ⟨fun surveyed allowIdentical expected log symbols hsymbols => ⟨?_, ?_⟩,
    fun settings sections log l => sound_of_link_eq_some⟩
  · rw [← hsymbols, symbols_survey]
    exact (SymbolTable.records_empty allowIdentical).defineAll?_eq_some _
  · intro sections roles mergeModule entry
    obtain ⟨-, hrecords, -⟩ := survey_covers surveyed allowIdentical expected log
    rw [hsymbols] at hrecords
    have hindexed : symbols.Indexed := hrecords.lookup_iff
    exact Scope.reachFrom?_eq_some_reachFrom (g := ⟨sections, symbols, roles, mergeModule⟩)
      hindexed entry

/-- The table is that of both sections; the first one alone is searched, which refers to a
    component of the other one. -/
theorem handles_in_range_definedTwice :
    (Scope.mk (definedTwice.take 1) (survey definedTwice false .unknown ∅).1.symbols .standard
        false).reachFrom? 0 =
      some ((Scope.mk (definedTwice.take 1) (survey definedTwice false .unknown ∅).1.symbols
        .standard false).reachFrom 0) ∧
    ((Scope.mk (definedTwice.take 1) (survey definedTwice false .unknown ∅).1.symbols .standard
        false).reachFrom 0).symbols.toList = [1] ∧
    ∃ l, (link {} definedTwice ∅).1 = some l ∧ l.reach.sections.toList = [0, 1] ∧ l.Sound := by
  have hlink : ((link {} definedTwice ∅).1.map fun l => l.reach.sections.toList) =
      some [0, 1] := by decide +kernel
  obtain ⟨l, hl, hsections⟩ := Option.map_eq_some_iff.1 hlink
  refine ⟨?_, by decide +kernel, l, hl, hsections, handles_in_range.2 {} definedTwice ∅ l hl⟩
  exact (handles_in_range.1 definedTwice false .unknown ∅ _ rfl).2 _ .standard false 0

end InstallerLinker
