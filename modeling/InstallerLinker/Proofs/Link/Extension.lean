/-
  Installer linker — more sections at the end.

  Whatever sections are given after those that are linked, the link keeps what it had: it
  starts where it did, each symbol is owned where it was, and what was reached is reached.
  A reference that led nowhere may lead somewhere now, and then the search takes another
  course, so the orders of the visits need not agree.

  * `definitionsOf_append` and `surveyIssues_prefix` say what a survey makes of the sections
    that follow;
  * `LinkSettings.hop_append`: no hop is lost where sections follow, for the first definition
    of a name is still the first;
  * `Linkage.ExtendedBy` compares two results, and `link_append` says what the sections that
    follow can change.
-/
import InstallerLinker.Proofs.Growth
import InstallerLinker.Proofs.Link.References
import InstallerLinker.Proofs.Link.Selection

namespace InstallerLinker

/-! ## The survey -/

section
variable (sections added : List Section)

theorem definitionsOf_append :
    definitionsOf (sections ++ added) = definitionsOf sections ++
      (definitionsOf added).map (Definition.move (sections.length + ·)) := by
  induction added using List.reverseRecOn with
  | nil => simp [definitionsOf]
  | append_singleton added s ih =>
    rw [← List.append_assoc, definitionsOf_append_singleton, definitionsOf_append_singleton, ih,
      List.map_append, map_move_definitions, List.length_append, List.append_assoc]

/-- What is reported of some sections is reported first where others follow. -/
theorem surveyIssues_prefix (allowIdentical : Bool) (expected : SectionKind) :
    surveyIssues allowIdentical expected sections <+:
      surveyIssues allowIdentical expected (sections ++ added) := by
  induction added using List.reverseRecOn with
  | nil => simp
  | append_singleton added s ih =>
    rw [← List.append_assoc, surveyIssues_append_singleton]
    exact ih.trans (List.prefix_append _ _)

end

section
variable {sections : Array Section} (added : Array Section)

/-- The first definition of a name is the first one still. -/
theorem find?_definitionsOf_append {name : String} {d : Definition}
    (h : (definitionsOf sections.toList).find? (·.name == name) = some d) :
    (definitionsOf (sections ++ added).toList).find? (·.name == name) = some d := by
  rw [Array.toList_append, definitionsOf_append, List.find?_append, h, Option.some_or]

theorem findIdx?_isEntry_append {entry : SectionIndex}
    (h : sections.toList.findIdx? (·.kind.isEntry) = some entry) :
    (sections ++ added).toList.findIdx? (·.kind.isEntry) = some entry := by
  rw [Array.toList_append, List.findIdx?_append, h, Option.some_or]

theorem getElem?_append_of_eq_some {i : SectionIndex} {s : Section} (h : sections[i]? = some s) :
    (sections ++ added)[i]? = some s := by
  rw [Array.getElem?_append_left (Array.getElem?_eq_some_iff.1 h).1, h]

theorem size_le_size_append : sections.size ≤ (sections ++ added).size := by
  rw [Array.size_append]
  exact Nat.le_add_right _ _

/-! ## What is reached -/

theorem LinkSettings.buildsMergeModule_append (settings : LinkSettings) {entry : SectionIndex}
    (h : entry < sections.size) :
    settings.buildsMergeModule (sections ++ added) entry =
      settings.buildsMergeModule sections entry := by
  rw [buildsMergeModule, buildsMergeModule, Array.getElem?_append_left h]

theorem LinkSettings.hop_append (settings : LinkSettings) {entry : SectionIndex}
    (hentry : entry < sections.size) {i j : SectionIndex}
    (h : (settings.graph sections entry).Hop i j) :
    (settings.graph (sections ++ added) entry).Hop i j := by
  obtain ⟨s, hs, row, hrow, d, hd, hj, hlt⟩ := h
  refine ⟨s, getElem?_append_of_eq_some added hs, row, ?_, d, find?_definitionsOf_append added hd,
    hj, Nat.lt_of_lt_of_le hlt (size_le_size_append added)⟩
  show s.Refers settings.roles (settings.buildsMergeModule (sections ++ added) entry) row
  rwa [settings.buildsMergeModule_append added hentry]

end

/-! ## The link -/

/-- The references of section `i` that lead nowhere, in the order in which they were met. -/
def Reach.danglingAt (reach : Reach) (i : SectionIndex) : List Reference :=
  (reach.dangling.toList.filter (·.sectionIndex = i)).map (·.reference)

/-- The result `l'` keeps what `l` has, where it also knows the definitions `added`. -/
structure Linkage.ExtendedBy (l l' : Linkage) (added : List Definition) : Prop where
  entry : l'.entry = l.entry
  symbols : l.symbols.ExtendedBy l'.symbols
  sections : l.reach.sections.toList ⊆ l'.reach.sections.toList
  referencedSymbols : l.reach.symbols.toList ⊆ l'.reach.symbols.toList
  /-- Of the references of a section, those still lead nowhere that do not ask for a name
      that has been added. -/
  danglingAt : ∀ i, l.includes i = true → l'.reach.danglingAt i =
    (l.reach.danglingAt i).filter fun r => ∀ d ∈ added, d.name ≠ r.targetName
  dangling : ∀ d ∈ l.reach.dangling.toList,
    d ∈ l'.reach.dangling.toList ∨ ∃ d' ∈ added, d'.name = d.reference.targetName

section
variable {settings : LinkSettings} {sections added : Array Section} {symbols symbols' : SymbolTable}
  {entry : SectionIndex} {allowIdentical : Bool}
  (hsymbols : symbols.Records allowIdentical (definitionsOf sections.toList))
  (hsymbols' : symbols'.Records allowIdentical (definitionsOf (sections ++ added).toList))
  (hentry : entry < sections.size)
include hsymbols hsymbols'

/-- A name is undefined if it was, and is not among those added. -/
theorem lookup_append_eq_none_iff {name : String} :
    symbols'.lookup name = none ↔
      symbols.lookup name = none ∧ ∀ d ∈ definitionsOf added.toList, d.name ≠ name := by
  rw [hsymbols.lookup_eq_none_iff, hsymbols'.lookup_eq_none_iff, Array.toList_append,
    definitionsOf_append]
  simp only [List.forall_mem_append, List.forall_mem_map, Definition.name_move]

include hentry

theorem includes_append {i : SectionIndex}
    (h : ((settings.scope sections symbols entry).reachFrom entry).includes i = true) :
    ((settings.scope (sections ++ added) symbols' entry).reachFrom entry).includes i = true := by
  rw [includes_iff_reaches hsymbols] at h
  rw [includes_iff_reaches hsymbols']
  exact h.mono (size_le_size_append added) fun _ _ => settings.hop_append added hentry

theorem danglingAt_append {i : SectionIndex}
    (h : ((settings.scope sections symbols entry).reachFrom entry).includes i = true) :
    ((settings.scope (sections ++ added) symbols' entry).reachFrom entry).danglingAt i =
      (((settings.scope sections symbols entry).reachFrom entry).danglingAt i).filter fun r =>
        ∀ d ∈ definitionsOf added.toList, d.name ≠ r.targetName := by
  have hlt : i < sections.size := (Scope.includes_reachFrom_iff.1 h).lt_size
  obtain ⟨s, hs⟩ : ∃ s, sections[i]? = some s := ⟨_, Array.getElem?_eq_getElem hlt⟩
  have hat := (Scope.accounts_reachFrom (settings.scope sections symbols entry) entry).dangling
    i s hs h
  have hat' := (Scope.accounts_reachFrom (settings.scope (sections ++ added) symbols' entry)
    entry).dangling i s (getElem?_append_of_eq_some added hs)
      (includes_append hsymbols hsymbols' hentry h)
  rw [Reach.danglingAt, Reach.danglingAt, hat, hat', List.filter_map, List.filter_filter]
  congr 1
  have hmerge : (settings.scope (sections ++ added) symbols' entry).mergeModule =
      (settings.scope sections symbols entry).mergeModule :=
    settings.buildsMergeModule_append added hentry
  rw [hmerge]
  refine List.filter_congr fun row _ => ?_
  rw [Bool.eq_iff_iff, Bool.and_eq_true, Option.isNone_iff_eq_none, Option.isNone_iff_eq_none,
    Function.comp_apply, decide_eq_true_iff, and_comm]
  exact lookup_append_eq_none_iff hsymbols hsymbols'

theorem symbols_subset_append (hextended : symbols.ExtendedBy symbols') :
    ((settings.scope sections symbols entry).reachFrom entry).symbols.toList ⊆
      ((settings.scope (sections ++ added) symbols' entry).reachFrom entry).symbols.toList := by
  intro k hk
  have haccounts := Scope.accounts_reachFrom (settings.scope sections symbols entry) entry
  have haccounts' :=
    Scope.accounts_reachFrom (settings.scope (sections ++ added) symbols' entry) entry
  rw [haccounts.mem_symbols_iff_of_records hsymbols] at hk
  rw [haccounts'.mem_symbols_iff_of_records hsymbols']
  obtain ⟨name, ⟨i, s, hi, hs, row, hrow, hname⟩, hlookup⟩ := hk
  refine ⟨name, ⟨i, s, includes_append hsymbols hsymbols' hentry hi,
    getElem?_append_of_eq_some added hs, row, ?_, hname⟩, hextended.lookup name k hlookup⟩
  show row ∈ s.followedRows settings.roles (settings.buildsMergeModule (sections ++ added) entry)
  rwa [settings.buildsMergeModule_append added hentry]

end

theorem Reach.mem_danglingAt_iff {reach : Reach} {i : SectionIndex} {r : Reference} :
    r ∈ reach.danglingAt i ↔ ⟨i, r⟩ ∈ reach.dangling.toList := by
  simp only [danglingAt, List.mem_map, List.mem_filter, decide_eq_true_eq]
  constructor
  · rintro ⟨d, ⟨hd, rfl⟩, rfl⟩
    exact hd
  · exact fun h => ⟨_, ⟨h, rfl⟩, rfl⟩

/-! ## The results -/

theorem extendedBy_definitionsOf_append (allowIdentical : Bool) (sections added : Array Section) :
    ((∅ : SymbolTable).defineAll allowIdentical (definitionsOf sections.toList)).ExtendedBy
      ((∅ : SymbolTable).defineAll allowIdentical (definitionsOf (sections ++ added).toList)) := by
  rw [Array.toList_append, definitionsOf_append, SymbolTable.defineAll_append]
  exact SymbolTable.extendedBy_defineAll _ _ _

theorem exists_link_append {settings : LinkSettings} {sections : Array Section}
    {log : Log LinkIssue} {l : Linkage} (h : (link settings sections log).1 = some l)
    (added : Array Section) :
    ∃ l', (link settings (sections ++ added) log).1 = some l' ∧
      l.ExtendedBy l' (definitionsOf added.toList) := by
  have htable := symbols_link h
  obtain ⟨-, hentry, hsymbols, hreach, -⟩ := of_link_eq_some h
  obtain ⟨symbols', reach', hsymbols', hreach', hresult, -⟩ :=
    link_of_entry settings (findIdx?_isEntry_append added hentry) log
  have htable' : symbols' = _ := symbols_link hresult
  have hextended : l.symbols.ExtendedBy symbols' := by
    rw [htable, htable']
    exact extendedBy_definitionsOf_append _ _ _
  have hlt : l.entry < sections.size := (List.findIdx?_eq_some_iff_getElem.1 hentry).1
  have hdangling : ∀ i, l.reach.includes i = true → reach'.danglingAt i =
      (l.reach.danglingAt i).filter fun r => ∀ d ∈ definitionsOf added.toList,
        d.name ≠ r.targetName := by
    rw [hreach, hreach']
    exact fun _ => danglingAt_append hsymbols hsymbols' hlt
  refine ⟨_, hresult, rfl, hextended, fun i hi => ?_, ?_, hdangling, fun d hd => ?_⟩
  · rw [hreach, (Scope.consistent_reachFrom _ _).mem_iff] at hi
    rw [hreach', (Scope.consistent_reachFrom _ _).mem_iff]
    exact includes_append hsymbols hsymbols' hlt hi
  · rw [hreach, hreach']
    exact symbols_subset_append hsymbols hsymbols' hlt hextended
  · have hvisited : l.reach.includes d.sectionIndex = true := by
      rw [hreach] at hd ⊢
      exact (Scope.accounts_reachFrom _ _).visited d hd
    have hmem : d.reference ∈ l.reach.danglingAt d.sectionIndex := Reach.mem_danglingAt_iff.2 hd
    by_cases hadded : ∃ d' ∈ definitionsOf added.toList, d'.name = d.reference.targetName
    · exact Or.inr hadded
    · refine Or.inl (Reach.mem_danglingAt_iff.1 ?_)
      rw [hdangling _ hvisited]
      exact List.mem_filter.2 ⟨hmem, by simpa using hadded⟩

/-- **To append sections takes nothing back.**  A survey keeps its symbols, each at its
    position, with further duplicates at the end of each list, and reports first what it
    did.  Where it had an entry it keeps it, and the link has a result still: it reaches all
    that it did, refers to all symbols that it did, and each reference that led nowhere
    still leads nowhere or asks for a name that the new sections define. -/
theorem link_append (settings : LinkSettings) (sections added : Array Section)
    (log : Log LinkIssue) :
    let before := survey sections settings.allowIdenticalRows settings.expectedKind log
    let after := survey (sections ++ added) settings.allowIdenticalRows settings.expectedKind log
    before.1.symbols.ExtendedBy after.1.symbols ∧ before.2.toList <+: after.2.toList ∧
      ∀ entry, before.1.entry = some entry → after.1.entry = some entry ∧
        ∃ l l', (link settings sections log).1 = some l ∧
          (link settings (sections ++ added) log).1 = some l' ∧ l.entry = entry ∧
          l.ExtendedBy l' (definitionsOf added.toList) := by
  intro before after
  obtain ⟨hbefore, -, hlog⟩ :=
    survey_covers sections settings.allowIdenticalRows settings.expectedKind log
  obtain ⟨hafter, -, hlog'⟩ :=
    survey_covers (sections ++ added) settings.allowIdenticalRows settings.expectedKind log
  refine ⟨?_, ?_, fun entry hentry => ?_⟩
  · rw [symbols_survey, symbols_survey]
    exact extendedBy_definitionsOf_append _ _ _
  · rw [hlog, hlog', List.prefix_append_right_inj, Array.toList_append]
    exact surveyIssues_prefix _ _ _ _
  · have hfirst := hbefore.symm.trans hentry
    obtain ⟨symbols, reach, -, -, hresult, -⟩ := link_of_entry settings hfirst log
    obtain ⟨l', hl', hextended⟩ := exists_link_append hresult added
    exact ⟨hafter.trans (findIdx?_isEntry_append added hfirst), _, l', hresult, hl', rfl, hextended⟩

/-- A product and a fragment that it needs. -/
def firstPart : Array Section :=
  #[componentSection "main" .product ["late", "x", "lost"] ["m"],
    componentSection "left" .fragment [] ["x", "m"]]

/-- Another product, which defines anew what the first one needs, and a fragment that
    defines what was missing. -/
def secondPart : Array Section :=
  #[componentSection "other" .product ["y"] ["x", "m"],
    componentSection "right" .fragment ["x"] ["late", "y"]]

/-- The symbol that was missing is found first now, and the search takes another course. -/
theorem link_append_parts :
    ∃ l l', (link {} firstPart ∅).1 = some l ∧ (link {} (firstPart ++ secondPart) ∅).1 = some l' ∧
      l.reach.sections.toList = [0, 1] ∧ l'.reach.sections.toList = [0, 3, 1] ∧
      l.reach.dangling.toList.map (·.reference.keys) = ["late", "lost"] ∧
      l'.reach.dangling.toList.map (·.reference.keys) = ["lost"] ∧
      l.ExtendedBy l' (definitionsOf secondPart.toList) := by
  obtain ⟨-, -, hlink⟩ := link_append {} firstPart secondPart ∅
  obtain ⟨-, l, l', hl, hl', -, hextended⟩ := hlink 0 (by decide +kernel)
  have hfirst : ((link {} firstPart ∅).1.map fun l =>
      (l.reach.sections.toList, l.reach.dangling.toList.map (·.reference.keys))) =
        some ([0, 1], ["late", "lost"]) := by decide +kernel
  have hboth : ((link {} (firstPart ++ secondPart) ∅).1.map fun l =>
      (l.reach.sections.toList, l.reach.dangling.toList.map (·.reference.keys))) =
        some ([0, 3, 1], ["lost"]) := by decide +kernel
  rw [hl, Option.map_some, Option.some.injEq] at hfirst
  rw [hl', Option.map_some, Option.some.injEq] at hboth
  obtain ⟨hsections, hdangling⟩ := Prod.mk.inj hfirst
  obtain ⟨hsections', hdangling'⟩ := Prod.mk.inj hboth
  exact ⟨l, l', hl, hl', hsections, hsections', hdangling, hdangling', hextended⟩

end InstallerLinker
