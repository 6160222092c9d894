/-
  Installer linker — when a link has no errors.

  * `isFatal_surveyIssues_iff`: of the messages of a survey, only those about a
    second entry are errors;
  * `hasErrors_link_eq_false_iff` says what an input must be like to be linked
    without errors, and when there is a result at all.
-/
import InstallerLinker.Proofs.Link.Report

namespace InstallerLinker

/-- There is a section at position `i`, and a link can start from it. -/
def IsEntryAt (sections : Array Section) (i : SectionIndex) : Prop :=
  ∃ s, sections[i]? = some s ∧ s.kind.isEntry = true

theorem isEntryAt_iff {sections : Array Section} {i : SectionIndex} :
    IsEntryAt sections i ↔ (sections[i]?).any (·.kind.isEntry) = true := by
  simp [IsEntryAt, Option.any_eq_true]

instance decidableIsEntryAt (sections : Array Section) : DecidablePred (IsEntryAt sections) :=
  fun _ => decidable_of_iff _ isEntryAt_iff.symm

/-- Every reference that is followed in a section reached names a symbol that
    some section defines. -/
def LinkSettings.AllDefined (settings : LinkSettings) (sections : Array Section)
    (entry : SectionIndex) : Prop :=
  ∀ i s row, (settings.graph sections entry).Reaches entry i → sections[i]? = some s →
    s.Refers settings.roles (settings.buildsMergeModule sections entry) row →
      ∃ d ∈ definitionsOf sections.toList, d.name = (Reference.ofRow row).targetName

theorem Log.hasErrors_eq_false_iff {δ : Type} [Diagnostic δ] {log : Log δ} :
    log.hasErrors = false ↔ ∀ d ∈ log.toList, Diagnostic.isFatal d = false := by
  rw [← Bool.not_eq_true, Log.hasErrors_iff, not_not, Log.errors, List.filter_eq_nil_iff]
  simp

/-! ## The survey -/

theorem isFatal_repetitionIssues {allowIdentical : Bool} {earlier ds : List Definition}
    {x : LinkIssue} (h : x ∈ repetitionIssues allowIdentical earlier ds) :
    Diagnostic.isFatal x = false := by
  obtain ⟨name, location, original, rfl⟩ := mem_repetitionIssues h
  rfl

theorem exists_fatal_entryIssues_iff {expected : SectionKind} {first : Option Section}
    {s : Section} :
    (∃ x ∈ entryIssues expected first s, Diagnostic.isFatal x = true) ↔
      first.isSome = true ∧ s.kind.isEntry = true := by
  constructor
  · rintro ⟨x, hx, hfatal⟩
    obtain ⟨hs, rfl | ⟨f, rfl, -⟩⟩ := mem_entryIssues hx
    · have hw : Diagnostic.isFatal
          (LinkIssue.unexpectedEntryKind s.id s.location expected s.kind) = false := rfl
      exact absurd (hw.symm.trans hfatal) Bool.noConfusion
    · exact ⟨rfl, hs⟩
  · rintro ⟨hf, hs⟩
    obtain ⟨f, rfl⟩ := Option.isSome_iff_exists.1 hf
    refine ⟨.ambiguousEntryPoint f.id f.location s.id s.location, ?_, rfl⟩
    rw [entryIssues, if_pos hs]
    exact List.mem_append_right _ (List.mem_singleton_self _)

/-- A survey reports an error if and only if there are two possible entries. -/
theorem isFatal_surveyIssues_iff (allowIdentical : Bool) (expected : SectionKind)
    (sections : Array Section) :
    (∃ x ∈ surveyIssues allowIdentical expected sections.toList, Diagnostic.isFatal x = true) ↔
      ∃ i j, i < j ∧ IsEntryAt sections i ∧ IsEntryAt sections j := by
  constructor
  · rintro ⟨x, hx, hfatal⟩
    obtain ⟨j, s, hs, hx | hx⟩ := mem_surveyIssues_iff.1 hx
    · obtain ⟨hsome, hentry⟩ := exists_fatal_entryIssues_iff.1 ⟨x, hx, hfatal⟩
      obtain ⟨f, hf⟩ := Option.isSome_iff_exists.1 hsome
      obtain ⟨hmem, hfentry⟩ := firstStart?_eq_some hf
      obtain ⟨i, hi, rfl⟩ := List.mem_take_iff_getElem.1 hmem
      rw [Array.getElem?_toList] at hs
      have hij : i < j := Nat.lt_of_lt_of_le hi (Nat.min_le_left _ _)
      refine ⟨i, j, hij, ⟨_, ?_, hfentry⟩, ⟨s, hs, hentry⟩⟩
      rw [← Array.getElem?_toList, List.getElem?_eq_getElem]
    · rw [isFatal_repetitionIssues hx] at hfatal
      cases hfatal
  · rintro ⟨i, j, hij, ⟨f, hf, hfentry⟩, ⟨s, hs, hentry⟩⟩
    rw [← Array.getElem?_toList] at hf hs
    have hsome : (firstStart? (sections.toList.take j)).isSome = true := by
      rw [firstStart?, List.find?_isSome]
      refine ⟨f, List.mem_of_getElem? (i := i) ?_, hfentry⟩
      rw [List.getElem?_take_of_lt hij, hf]
    obtain ⟨x, hx, hfatal⟩ := exists_fatal_entryIssues_iff.2 ⟨hsome, hentry⟩
    exact ⟨x, mem_surveyIssues_iff.2 ⟨j, s, hs, Or.inl hx⟩, hfatal⟩

/-! ## References and collisions -/

/-- No reference dangles if and only if all are defined. -/
theorem dangling_eq_nil_iff {settings : LinkSettings} {sections : Array Section}
    {symbols : SymbolTable}
    (h : symbols.Records settings.allowIdenticalRows (definitionsOf sections.toList))
    (entry : SectionIndex) :
    ((settings.scope sections symbols entry).reachFrom entry).dangling.toList = [] ↔
      settings.AllDefined sections entry := by
  have hdangles : ∀ r, (settings.scope sections symbols entry).dangles r = true ↔
      (settings.scope sections symbols entry).skips r = false ∧
        ∀ d ∈ definitionsOf sections.toList, d.name ≠ r.targetName := by
    intro r
    rw [← h.lookup_eq_none_iff, Scope.dangles, Bool.and_eq_true, Bool.not_eq_true',
      Option.isNone_iff_eq_none]
    rfl
  rw [List.eq_nil_iff_forall_not_mem]
  constructor
  · intro hnil i s row hi hs hrow
    by_contra hno
    push Not at hno
    obtain ⟨hr, hskip⟩ := (Scope.exists_refers_iff
      (g := settings.scope sections symbols entry)).1 ⟨row, hrow, rfl⟩
    refine hnil ⟨i, .ofRow row⟩ (Scope.mem_dangling_iff.2 ⟨?_, ?_, ?_⟩)
    · rwa [graph_scope h]
    · rw [Scope.referencesAt, show (settings.scope sections symbols entry).sections[i]? = some s from hs]
      exact hr
    · exact (hdangles _).2 ⟨hskip, hno⟩
  · intro hall d hd
    obtain ⟨hreach, hr, hdangle⟩ := Scope.mem_dangling_iff.1 hd
    obtain ⟨hskip, hno⟩ := (hdangles _).1 hdangle
    rw [graph_scope h] at hreach
    rw [Scope.referencesAt] at hr
    cases hs : (settings.scope sections symbols entry).sections[d.sectionIndex]? with
    | none => rw [hs] at hr; exact absurd hr List.not_mem_nil
    | some s =>
      rw [hs] at hr
      obtain ⟨row, hrow, hrd⟩ := Scope.exists_refers_iff.2 ⟨hr, hskip⟩
      obtain ⟨d', hd', hname⟩ := hall _ s row hreach hs hrow
      exact hno d' hd' (hrd ▸ hname)

theorem isFatal_dangling_eq_false_iff {settings : LinkSettings} {sections : Array Section}
    {symbols : SymbolTable}
    (h : symbols.Records settings.allowIdenticalRows (definitionsOf sections.toList))
    {entry : SectionIndex} :
    (∀ x ∈ ((settings.scope sections symbols entry).reachFrom entry).dangling.toList.map
        DanglingReference.issue, Diagnostic.isFatal x = false) ↔
      settings.AllDefined sections entry := by
  rw [← dangling_eq_nil_iff h, List.eq_nil_iff_forall_not_mem, List.forall_mem_map]
  refine forall₂_congr fun d _ => ?_
  have hfatal : Diagnostic.isFatal d.issue = true := rfl
  simp [hfatal]

theorem isFatal_collisionIssues {reach : Reach} {roles : TableRoles} {s : Symbol} {x : LinkIssue}
    (h : x ∈ s.collisionIssues reach roles) : Diagnostic.isFatal x = true := by
  obtain rfl | ⟨d, -, rfl⟩ := mem_collisionIssues h <;> rfl

theorem isFatal_collisions_iff {allowIdentical : Bool} {symbols : SymbolTable}
    {ds : List Definition} (h : symbols.Records allowIdentical ds) (reach : Reach)
    (roles : TableRoles) :
    (∃ x ∈ symbols.contestedSymbols.flatMap (Symbol.collisionIssues reach roles),
        Diagnostic.isFatal x = true) ↔
      ∃ name, Collides allowIdentical roles (reach.includes · = true) ds name := by
  constructor
  · rintro ⟨x, hx, -⟩
    obtain ⟨s, hs, hx⟩ := List.mem_flatMap.1 hx
    exact ⟨s.name, (exists_collisionIssues_iff h).1 ⟨s, hs, rfl, List.ne_nil_of_mem hx⟩⟩
  · rintro ⟨name, hname⟩
    obtain ⟨s, hs, -, hne⟩ := (exists_collisionIssues_iff h).2 hname
    obtain ⟨x, hx⟩ := List.exists_mem_of_ne_nil _ hne
    exact ⟨x, List.mem_flatMap.2 ⟨s, hs, hx⟩, isFatal_collisionIssues hx⟩

/-! ## The whole link -/

theorem isEntryAt_of_findIdx? {sections : Array Section} {entry : SectionIndex}
    (h : sections.toList.findIdx? (·.kind.isEntry) = some entry) : IsEntryAt sections entry := by
  obtain ⟨hlt, hentry, -⟩ := List.findIdx?_eq_some_iff_getElem.1 h
  refine ⟨sections.toList[entry], ?_, hentry⟩
  rw [← Array.getElem?_toList, List.getElem?_eq_getElem hlt]

theorem findIdx?_eq_none_iff_not_isEntryAt {sections : Array Section} :
    sections.toList.findIdx? (·.kind.isEntry) = none ↔ ∀ i, ¬ IsEntryAt sections i := by
  rw [List.findIdx?_eq_none_iff]
  constructor
  · rintro h i ⟨s, hs, hentry⟩
    rw [← Array.getElem?_toList] at hs
    exact absurd ((h s (List.mem_of_getElem? hs)).symm.trans hentry) Bool.noConfusion
  · intro h s hs
    obtain ⟨i, hi⟩ := List.mem_iff_getElem?.1 hs
    rw [Array.getElem?_toList] at hi
    exact Bool.eq_false_iff.2 fun hentry => h i ⟨s, hi, hentry⟩

theorem isFatal_survey_eq_false_iff {allowIdentical : Bool} {expected : SectionKind}
    {sections : Array Section} {entry : SectionIndex} (h : IsEntryAt sections entry) :
    (∀ x ∈ surveyIssues allowIdentical expected sections.toList, Diagnostic.isFatal x = false) ↔
      ∀ i, IsEntryAt sections i ↔ i = entry := by
  have htwo := isFatal_surveyIssues_iff allowIdentical expected sections
  constructor
  · intro hnone i
    have hno : ¬ ∃ i j, i < j ∧ IsEntryAt sections i ∧ IsEntryAt sections j := by
      rw [← htwo]
      rintro ⟨x, hx, hfatal⟩
      exact absurd ((hnone x hx).symm.trans hfatal) Bool.noConfusion
    refine ⟨fun hi => ?_, fun hi => hi ▸ h⟩
    rcases Nat.lt_trichotomy i entry with hlt | heq | hgt
    · exact absurd ⟨i, entry, hlt, hi, h⟩ hno
    · exact heq
    · exact absurd ⟨entry, i, hgt, h, hi⟩ hno
  · intro hone x hx
    refine Bool.eq_false_iff.2 fun hfatal => ?_
    obtain ⟨i, j, hij, hi, hj⟩ := htwo.1 ⟨x, hx, hfatal⟩
    rw [(hone i).1 hi, (hone j).1 hj] at hij
    exact Nat.lt_irrefl _ hij

/-- **The meaning of a link without errors.**  A link has no errors if and only if
    it can start from exactly one section, every reference that is followed from
    there is defined, and no definitions collide in the sections reached.  It has
    no result if and only if it can start from no section. -/
theorem hasErrors_link_eq_false_iff (settings : LinkSettings) (sections : Array Section) :
    ((link settings sections ∅).2.hasErrors = false ↔
        ∃ entry, (∀ i, IsEntryAt sections i ↔ i = entry) ∧ settings.AllDefined sections entry ∧
          ∀ name, ¬ Collides settings.allowIdenticalRows settings.roles
            ((settings.graph sections entry).Reaches entry) (definitionsOf sections.toList) name) ∧
      ((link settings sections ∅).1 = none ↔ ∀ i, ¬ IsEntryAt sections i) := by
  rw [← findIdx?_eq_none_iff_not_isEntryAt, Log.hasErrors_eq_false_iff]
  cases hentry : sections.toList.findIdx? (·.kind.isEntry) with
  | none =>
    obtain ⟨hnone, hlog⟩ := link_of_no_entry settings hentry ∅
    refine ⟨?_, by simp [hnone]⟩
    have hfatal : Diagnostic.isFatal (LinkIssue.missingEntrySection settings.expectedKind) = true :=
      rfl
    rw [hlog]
    constructor
    · intro h
      have := h (.missingEntrySection settings.expectedKind) (by simp)
      exact absurd (this.symm.trans hfatal) Bool.noConfusion
    · rintro ⟨entry, hone, -⟩
      exact absurd ((hone entry).2 rfl) (findIdx?_eq_none_iff_not_isEntryAt.1 hentry entry)
  | some entry =>
    obtain ⟨symbols, reach, hsymbols, rfl, hresult, hlog⟩ := link_of_entry settings hentry ∅
    refine ⟨?_, by simp [hresult]⟩
    have hstart := isEntryAt_of_findIdx? hentry
    have hin : (((settings.scope sections symbols entry).reachFrom entry).includes · = true) =
        (settings.graph sections entry).Reaches entry :=
      funext fun i => propext (includes_iff_reaches hsymbols entry i)
    have hcollisions := not_congr (isFatal_collisions_iff hsymbols
      ((settings.scope sections symbols entry).reachFrom entry) settings.roles)
    rw [hin] at hcollisions
    push Not at hcollisions
    rw [hlog, Log.toList_empty, List.nil_append, List.forall_mem_append, List.forall_mem_append,
      isFatal_survey_eq_false_iff hstart, isFatal_dangling_eq_false_iff hsymbols]
    simp only [Bool.not_eq_true] at hcollisions
    rw [hcollisions]
    constructor
    · exact fun h => ⟨entry, h⟩
    · rintro ⟨entry', hone, h⟩
      obtain rfl := (hone entry).1 hstart
      exact ⟨hone, h⟩

end InstallerLinker
