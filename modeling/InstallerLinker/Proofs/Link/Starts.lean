/-
  Installer linker — where a link can start.

  A survey takes the first section that a link can start from as the entry.  It
  reports each such section that is of another kind than was asked for and each one
  after the first, and goes on.

  * `startIssues` are the messages about one section, where all of them are known;
    `surveyIssues_eq` says that a survey reports these and, after those about a
    section, the rows of it that repeat others;
  * `filter_isAmbiguity_surveyIssues` gives the messages about further starts;
  * `Surveyed` puts together what is found and reported, and `surveyed_survey` says
    that a survey brings that about.
-/
import Mathlib.Order.Bounds.Basic
import InstallerLinker.Proofs.Growth
import InstallerLinker.Proofs.Link.ErrorFree

namespace InstallerLinker

/-! ## The entry -/

theorem isLeast_of_findIdx? {sections : Array Section} {entry : SectionIndex}
    (h : sections.toList.findIdx? (·.kind.isEntry) = some entry) :
    IsLeast {i | IsEntryAt sections i} entry := by
  refine ⟨isEntryAt_of_findIdx? h, ?_⟩
  rintro i ⟨s, hs, hentry⟩
  obtain ⟨_, _, hbefore⟩ := List.findIdx?_eq_some_iff_getElem.1 h
  by_contra hi
  refine hbefore i (Nat.lt_of_not_le hi) ?_
  rw [← Array.getElem?_toList] at hs
  rwa [(List.getElem?_eq_some_iff.1 hs).2]

/-- The entry is the first of the sections that a link can start from. -/
theorem findIdx?_eq_some_iff_isLeast {sections : Array Section} {entry : SectionIndex} :
    sections.toList.findIdx? (·.kind.isEntry) = some entry ↔
      IsLeast {i | IsEntryAt sections i} entry := by
  refine ⟨isLeast_of_findIdx?, fun h => ?_⟩
  cases hfirst : sections.toList.findIdx? (·.kind.isEntry) with
  | none => exact absurd h.1 (findIdx?_eq_none_iff_not_isEntryAt.1 hfirst entry)
  | some i => rw [(isLeast_of_findIdx? hfirst).unique h]

/-! ## The messages about one section -/

/-- The messages about the section `s` at position `i` as a possible start: one if
    it is of another kind than was asked for, and one if it is not the first. -/
def startIssues (expected : SectionKind) (sections : List Section) (i : SectionIndex)
    (s : Section) : List LinkIssue :=
  if s.kind.isEntry then
    (if expected ≠ .unknown ∧ expected ≠ s.kind then
      [.unexpectedEntryKind s.id s.location expected s.kind] else []) ++
    (if sections.findIdx? (·.kind.isEntry) = some i then []
      else (firstStart? sections).toList.map fun f =>
        .ambiguousEntryPoint f.id f.location s.id s.location)
  else []

/-- Whether a section is the first start, and which section is, is known from those
    before it. -/
theorem entryIssues_take (expected : SectionKind) {sections : List Section} {i : SectionIndex}
    {s : Section} (hs : sections[i]? = some s) :
    entryIssues expected (firstStart? (sections.take i)) s =
      startIssues expected sections i s := by
  unfold entryIssues startIssues
  split
  · next hentry =>
    congr 1
    obtain ⟨hi, rfl⟩ := List.getElem?_eq_some_iff.1 hs
    cases hf : firstStart? (sections.take i) with
    | none =>
      have hfirst : sections.findIdx? (·.kind.isEntry) = some i := by
        refine List.findIdx?_eq_some_iff_getElem.2 ⟨hi, hentry, fun j hj => ?_⟩
        exact List.find?_eq_none.1 hf _ (List.mem_take_iff_getElem.2 ⟨j, by omega, rfl⟩)
      rw [if_pos hfirst]
    | some f =>
      obtain ⟨j, hj⟩ := exists_findIdx?_of_firstStart? hf
      have hne : sections.findIdx? (·.kind.isEntry) ≠ some i := by
        rw [(List.take_prefix i sections).findIdx?_eq_some hj]
        obtain ⟨hlt, -⟩ := List.findIdx?_eq_some_iff_getElem.1 hj
        rw [List.length_take] at hlt
        exact fun heq => absurd (Option.some.inj heq) (by omega)
      rw [if_neg hne, firstStart?, (List.take_prefix i sections).find?_eq_some hf]
      rfl
  · rfl

/-- The messages of a survey, section by section. -/
theorem surveyIssues_eq (allowIdentical : Bool) (expected : SectionKind)
    (sections : List Section) :
    surveyIssues allowIdentical expected sections = sections.zipIdx.flatMap fun p =>
      startIssues expected sections p.2 p.1 ++
        repetitionIssues allowIdentical (definitionsOf (sections.take p.2))
          (p.1.definitions p.2) := by
  refine List.flatMap_congr fun p hp => ?_
  rw [entryIssues_take expected (List.mem_zipIdx_iff_getElem?.1 hp)]

/-! ## Further starts -/

/-- The message is about a section that a link can start from besides the entry. -/
def LinkIssue.isAmbiguity : LinkIssue → Bool
  | .ambiguousEntryPoint .. => true
  | _ => false

/-- The messages about sections that a link can start from: one for each after the
    first. -/
def ambiguities : List Section → List LinkIssue
  | [] => []
  | first :: others =>
    others.map fun s => .ambiguousEntryPoint first.id first.location s.id s.location

theorem ambiguities_append_singleton (starts : List Section) (s : Section) :
    ambiguities (starts ++ [s]) = ambiguities starts ++
      starts.head?.toList.map fun f => .ambiguousEntryPoint f.id f.location s.id s.location := by
  cases starts with
  | nil => rfl
  | cons first others => exact List.map_append

theorem length_ambiguities (starts : List Section) :
    (ambiguities starts).length = starts.length - 1 := by
  cases starts with
  | nil => rfl
  | cons first others => exact List.length_map _

theorem filter_isAmbiguity_entryIssues (expected : SectionKind) (first : Option Section)
    {s : Section} (hs : s.kind.isEntry = true) :
    (entryIssues expected first s).filter (·.isAmbiguity) =
      first.toList.map fun f => .ambiguousEntryPoint f.id f.location s.id s.location := by
  unfold entryIssues
  rw [if_pos hs, List.filter_append]
  have hkind : (if expected ≠ .unknown ∧ expected ≠ s.kind then
      [LinkIssue.unexpectedEntryKind s.id s.location expected s.kind] else []).filter
      (·.isAmbiguity) = [] := by
    split <;> rfl
  rw [hkind]
  cases first <;> rfl

theorem filter_isAmbiguity_repetitionIssues (allowIdentical : Bool)
    (earlier ds : List Definition) :
    (repetitionIssues allowIdentical earlier ds).filter (·.isAmbiguity) = [] := by
  refine List.filter_eq_nil_iff.2 fun x hx => ?_
  obtain ⟨name, location, original, rfl⟩ := mem_repetitionIssues hx
  exact Bool.false_ne_true

theorem filter_isAmbiguity_surveyIssues (allowIdentical : Bool) (expected : SectionKind)
    (sections : List Section) :
    (surveyIssues allowIdentical expected sections).filter (·.isAmbiguity) =
      ambiguities (sections.filter (·.kind.isEntry)) := by
  induction sections using List.reverseRecOn with
  | nil => rfl
  | append_singleton sections s ih =>
    rw [surveyIssues_append_singleton, List.filter_append, List.filter_append, ih,
      filter_isAmbiguity_repetitionIssues, List.append_nil, List.filter_append]
    cases hs : s.kind.isEntry with
    | false => simp [entryIssues, hs]
    | true =>
      have hone : [s].filter (·.kind.isEntry) = [s] := by simp [hs]
      rw [filter_isAmbiguity_entryIssues expected _ hs, hone, ambiguities_append_singleton,
        List.head?_filter, firstStart?]

/-! ## The whole survey -/

/-- What a survey finds in the sections, and the messages that it adds. -/
structure Surveyed (allowIdentical : Bool) (expected : SectionKind) (sections : Array Section)
    (found : Survey) (issues : List LinkIssue) : Prop where
  /-- The entry is the first section that a link can start from. -/
  entry_eq_some_iff : ∀ i, found.entry = some i ↔ IsLeast {i | IsEntryAt sections i} i
  entry_eq_none_iff : found.entry = none ↔ ∀ i, ¬ IsEntryAt sections i
  /-- Each section is reported on in turn, as a start and row by row. -/
  issues_eq : issues = sections.toList.zipIdx.flatMap fun p =>
    startIssues expected sections.toList p.2 p.1 ++
      repetitionIssues allowIdentical (definitionsOf (sections.toList.take p.2))
        (p.1.definitions p.2)
  /-- Each start after the first is reported together with the first. -/
  ambiguities_eq : issues.filter (·.isAmbiguity) =
    ambiguities (sections.toList.filter (·.kind.isEntry))
  countP_isAmbiguity : issues.countP (·.isAmbiguity) =
    sections.toList.countP (·.kind.isEntry) - 1
  /-- The symbols are those of all sections, whatever is reported. -/
  symbols_eq : found.symbols =
    (∅ : SymbolTable).defineAll allowIdentical (definitionsOf sections.toList)

/-- **The entry and the messages of a survey.** -/
theorem surveyed_survey (sections : Array Section) (allowIdentical : Bool)
    (expected : SectionKind) (log : Log LinkIssue) :
    ∃ issues, (survey sections allowIdentical expected log).2.toList = log.toList ++ issues ∧
      Surveyed allowIdentical expected sections
        (survey sections allowIdentical expected log).1 issues := by
  obtain ⟨hentry, -, hlog⟩ := survey_covers sections allowIdentical expected log
  have hambiguities := filter_isAmbiguity_surveyIssues allowIdentical expected sections.toList
  refine ⟨_, hlog, ⟨fun i => ?_, ?_, ?_, hambiguities, ?_, ?_⟩⟩
  · rw [hentry, findIdx?_eq_some_iff_isLeast]
  · rw [hentry, findIdx?_eq_none_iff_not_isEntryAt]
  · exact surveyIssues_eq ..
  · rw [List.countP_eq_length_filter, hambiguities, length_ambiguities,
      List.countP_eq_length_filter]
  · exact symbols_survey ..

end InstallerLinker
