/-
  Installer linker — what a survey finds and reports.

  A survey reads the sections one after the other.  What it knows and what it has
  reported after some of them is said here without the pass, from the list of
  the sections read alone.

  * `definitionsOf` are all definitions of a list of sections, `entryIssues` and
    `repetitionIssues` the messages about one section, and `surveyIssues` those
    about all;
  * `Survey.Progress.Covers` is the invariant of the pass: entry, symbols and log
    are those of the sections read;
  * `survey_covers` is the result: no message cuts the pass short.
-/
import Mathlib.Data.List.Basic
import InstallerLinker.Proofs.Symbols
import InstallerLinker.Survey

namespace InstallerLinker

/-! ## The messages -/

/-- All definitions, in section, table and row order. -/
def definitionsOf (sections : List Section) : List Definition :=
  sections.zipIdx.flatMap fun p => p.1.definitions p.2

/-- The messages about a section as a possible start, where `first` is the first
    section before it that is one. -/
def entryIssues (expected : SectionKind) (first : Option Section) (s : Section) : List LinkIssue :=
  if s.kind.isEntry then
    (if expected ≠ .unknown ∧ expected ≠ s.kind then
      [.unexpectedEntryKind s.id s.location expected s.kind] else []) ++
    match first with
    | none => []
    | some f => [.ambiguousEntryPoint f.id f.location s.id s.location]
  else []

/-- The messages about definitions that come after the definitions `earlier`. -/
def repetitionIssues (allowIdentical : Bool) (earlier : List Definition) :
    List Definition → List LinkIssue
  | [] => []
  | d :: ds => (repetition? allowIdentical earlier d).toList ++
      repetitionIssues allowIdentical (earlier ++ [d]) ds

/-- The first section that a link can start from. -/
def firstStart? (sections : List Section) : Option Section := sections.find? (·.kind.isEntry)

theorem firstStart?_eq_some {sections : List Section} {s : Section}
    (h : firstStart? sections = some s) : s ∈ sections ∧ s.kind.isEntry = true :=
  ⟨List.mem_of_find?_eq_some h, List.find?_some (p := fun s : Section => s.kind.isEntry) h⟩

theorem findIdx?_eq_none_of_firstStart? {sections : List Section}
    (h : firstStart? sections = none) : sections.findIdx? (·.kind.isEntry) = none :=
  List.findIdx?_eq_none_iff.2 fun s hs => by simpa using List.find?_eq_none.1 h s hs

theorem exists_findIdx?_of_firstStart? {sections : List Section} {s : Section}
    (h : firstStart? sections = some s) : ∃ i, sections.findIdx? (·.kind.isEntry) = some i := by
  rw [← Option.isSome_iff_exists, List.findIdx?_isSome, List.any_eq_true]
  exact ⟨s, firstStart?_eq_some h⟩

/-- The messages about all sections, in order. -/
def surveyIssues (allowIdentical : Bool) (expected : SectionKind) (sections : List Section) :
    List LinkIssue :=
  sections.zipIdx.flatMap fun p =>
    entryIssues expected (firstStart? (sections.take p.2)) p.1 ++
      repetitionIssues allowIdentical (definitionsOf (sections.take p.2)) (p.1.definitions p.2)

theorem mem_repetitionIssues {allowIdentical : Bool} {earlier ds : List Definition} {x : LinkIssue}
    (h : x ∈ repetitionIssues allowIdentical earlier ds) :
    ∃ name location original, x = .identicalDuplicateRow name location original := by
  induction ds generalizing earlier with
  | nil => exact absurd h List.not_mem_nil
  | cons d ds ih =>
    rcases List.mem_append.1 h with h | h
    · unfold repetition? at h
      split at h
      · exact absurd h List.not_mem_nil
      · split at h
        · exact ⟨_, _, _, List.mem_singleton.1 h⟩
        · exact absurd h List.not_mem_nil
    · exact ih h

theorem mem_entryIssues {expected : SectionKind} {first : Option Section} {s : Section}
    {x : LinkIssue} (h : x ∈ entryIssues expected first s) :
    s.kind.isEntry = true ∧ (x = .unexpectedEntryKind s.id s.location expected s.kind ∨
      ∃ f, first = some f ∧ x = .ambiguousEntryPoint f.id f.location s.id s.location) := by
  unfold entryIssues at h
  split at h
  · next hs =>
    refine ⟨hs, ?_⟩
    rcases List.mem_append.1 h with h | h
    · split at h
      · exact Or.inl (List.mem_singleton.1 h)
      · exact absurd h List.not_mem_nil
    · cases first with
      | none => exact absurd h List.not_mem_nil
      | some f => exact Or.inr ⟨f, rfl, List.mem_singleton.1 h⟩
  · exact absurd h List.not_mem_nil

theorem mem_surveyIssues_iff {allowIdentical : Bool} {expected : SectionKind}
    {sections : List Section} {x : LinkIssue} :
    x ∈ surveyIssues allowIdentical expected sections ↔
      ∃ i s, sections[i]? = some s ∧
        (x ∈ entryIssues expected (firstStart? (sections.take i)) s ∨
          x ∈ repetitionIssues allowIdentical (definitionsOf (sections.take i)) (s.definitions i)) := by
  simp only [surveyIssues, List.mem_flatMap, List.mem_append, Prod.exists,
    List.mem_zipIdx_iff_getElem?]
  exact exists_comm

/-- A survey reports on entries and on repeated rows, and on nothing else. -/
theorem of_mem_surveyIssues {allowIdentical : Bool} {expected : SectionKind}
    {sections : List Section} {x : LinkIssue}
    (h : x ∈ surveyIssues allowIdentical expected sections) :
    (∃ id location found, x = .unexpectedEntryKind id location expected found) ∨
      (∃ first firstLocation second secondLocation,
        x = .ambiguousEntryPoint first firstLocation second secondLocation) ∨
      ∃ name location original, x = .identicalDuplicateRow name location original := by
  obtain ⟨i, s, -, h | h⟩ := mem_surveyIssues_iff.1 h
  · obtain ⟨-, rfl | ⟨f, -, rfl⟩⟩ := mem_entryIssues h
    · exact Or.inl ⟨_, _, _, rfl⟩
    · exact Or.inr (Or.inl ⟨_, _, _, _, rfl⟩)
  · exact Or.inr (Or.inr (mem_repetitionIssues h))

theorem zipIdx_append_singleton {α : Type} (l : List α) (a : α) :
    (l ++ [a]).zipIdx = l.zipIdx ++ [(a, l.length)] := by
  simp [List.zipIdx_append]

theorem definitionsOf_append_singleton (sections : List Section) (s : Section) :
    definitionsOf (sections ++ [s]) = definitionsOf sections ++ s.definitions sections.length := by
  simp [definitionsOf, zipIdx_append_singleton]

theorem surveyIssues_append_singleton (allowIdentical : Bool) (expected : SectionKind)
    (sections : List Section) (s : Section) :
    surveyIssues allowIdentical expected (sections ++ [s]) =
      surveyIssues allowIdentical expected sections ++
        (entryIssues expected (firstStart? sections) s ++
          repetitionIssues allowIdentical (definitionsOf sections)
            (s.definitions sections.length)) := by
  rw [surveyIssues, zipIdx_append_singleton, List.flatMap_append, List.flatMap_singleton,
    List.take_left]
  congr 1
  refine List.flatMap_congr fun p hp => ?_
  have hlt : p.2 < sections.length := by simpa using List.snd_lt_add_of_mem_zipIdx hp
  rw [List.take_append_of_le_length (Nat.le_of_lt hlt)]

/-! ## The pass -/

/-- To show something of a fold over the elements of a list and their positions,
    show that it holds of the list read so far. -/
theorem foldl_zipIdx_induct {α β : Type} {f : β → α × Nat → β} {P : List α → β → Prop} (l : List α)
    (b : β) (nil : P [] b)
    (step : ∀ before a after b, l = before ++ a :: after → P before b →
      P (before ++ [a]) (f b (a, before.length))) : P l (l.zipIdx.foldl f b) := by
  suffices h : ∀ after before b, l = before ++ after → P before b →
      P l ((after.zipIdx before.length).foldl f b) from h l [] b rfl nil
  intro after
  induction after with
  | nil =>
    intro before b hl hb
    rwa [hl, List.append_nil]
  | cons a after ih =>
    intro before b hl hb
    rw [List.zipIdx_cons, List.foldl_cons]
    have := ih (before ++ [a]) (f b (a, before.length)) (by simp [hl]) (step before a after b hl hb)
    rwa [List.length_append] at this

namespace Survey.Progress
variable {sections : Array Section} {allowIdentical : Bool} {expected : SectionKind}
  {log : Log LinkIssue}

/-- What is known after the sections `done`. -/
structure Covers (allowIdentical : Bool) (expected : SectionKind) (log : Log LinkIssue)
    (done : List Section) (p : Progress) : Prop where
  entry : p.entry = done.findIdx? (·.kind.isEntry)
  symbols : p.symbols.Records allowIdentical (definitionsOf done)
  log : p.log.toList = log.toList ++ surveyIssues allowIdentical expected done

theorem symbols_noteEntry (sections : Array Section) (expected : SectionKind) (p : Progress)
    (i : SectionIndex) (s : Section) :
    (p.noteEntry sections expected i s).symbols = p.symbols := by
  obtain ⟨entry, symbols, log⟩ := p
  unfold noteEntry
  split
  · simp only
    split <;> rfl
  · rfl

theorem noteEntry_eq (expected : SectionKind) {done after : List Section} {s : Section} {p : Progress}
    (hl : sections.toList = done ++ s :: after) (hp : p.entry = done.findIdx? (·.kind.isEntry)) :
    (p.noteEntry sections expected done.length s).entry = (done ++ [s]).findIdx? (·.kind.isEntry) ∧
      (p.noteEntry sections expected done.length s).log.toList =
        p.log.toList ++ entryIssues expected (firstStart? done) s := by
  have hfirst : p.entry.bind (sections[·]?) = firstStart? done := by
    rw [firstStart?, List.find?_eq_bind_findIdx?_getElem?, hp]
    refine Option.bind_congr fun i hi => ?_
    have hlt : i < done.length := (List.findIdx?_eq_some_iff_getElem.1 hi).1
    rw [← Array.getElem?_toList, hl, List.getElem?_append_left hlt]
  cases hs : s.kind.isEntry with
  | false => simp [noteEntry, entryIssues, hs, hp, List.findIdx?_append, List.findIdx?_cons]
  | true =>
    obtain ⟨entry, symbols, log⟩ := p
    simp only at hp hfirst
    cases hf : firstStart? done with
    | none =>
      have hnone := findIdx?_eq_none_of_firstStart? hf
      simp only [noteEntry, entryIssues, hs, if_true, hfirst, hf]
      refine ⟨by simp [List.findIdx?_append, hnone, List.findIdx?_cons, hs], ?_⟩
      split <;> simp
    | some f =>
      simp only [noteEntry, entryIssues, hs, if_true, hfirst, hf]
      refine ⟨?_, ?_⟩
      · obtain ⟨i, hi⟩ := exists_findIdx?_of_firstStart? hf
        rw [hp, List.findIdx?_append, hi, Option.some_or]
      · split <;> simp

theorem foldl_define_eq {p : Progress} {earlier : List Definition} (ds : List Definition)
    (hp : p.symbols.Records allowIdentical earlier) :
    (ds.foldl (define allowIdentical) p).entry = p.entry ∧
      (ds.foldl (define allowIdentical) p).symbols.Records allowIdentical (earlier ++ ds) ∧
      (ds.foldl (define allowIdentical) p).log.toList =
        p.log.toList ++ repetitionIssues allowIdentical earlier ds := by
  induction ds generalizing p earlier with
  | nil => simpa [repetitionIssues] using hp
  | cons d ds ih =>
    obtain ⟨entry, symbols, log⟩ := p
    have hd := hp.define d
    have hissue := hp.issue_define d
    rw [List.foldl_cons, repetitionIssues, ← hissue]
    rcases hdef : symbols.define allowIdentical d with ⟨symbols', issue⟩
    rw [hdef] at hd
    cases issue with
    | none =>
      obtain ⟨h1, h2, h3⟩ := ih (p := ⟨entry, symbols', log⟩) hd
      rw [define, hdef]
      refine ⟨h1, by simpa using h2, by simpa using h3⟩
    | some issue =>
      obtain ⟨h1, h2, h3⟩ := ih (p := ⟨entry, symbols', log.push issue⟩) hd
      rw [define, hdef]
      refine ⟨h1, by simpa using h2, by simpa using h3⟩

theorem Covers.readSection {done after : List Section} {s : Section} {p : Progress}
    (h : Covers allowIdentical expected log done p) (hl : sections.toList = done ++ s :: after) :
    Covers allowIdentical expected log (done ++ [s])
      (p.readSection sections allowIdentical expected done.length s) := by
  obtain ⟨hentry, hlog⟩ := noteEntry_eq expected hl h.entry
  have hsymbols := h.symbols
  rw [← symbols_noteEntry sections expected p done.length s] at hsymbols
  obtain ⟨h1, h2, h3⟩ := foldl_define_eq (s.definitions done.length) hsymbols
  refine ⟨h1.trans hentry, ?_, ?_⟩
  · rw [definitionsOf_append_singleton]
    exact h2
  · rw [surveyIssues_append_singleton, ← List.append_assoc, ← h.log, ← List.append_assoc, ← hlog]
    exact h3

theorem covers_readAll (sections : Array Section) (allowIdentical : Bool) (expected : SectionKind)
    (log : Log LinkIssue) :
    Covers allowIdentical expected log sections.toList
      (readAll sections allowIdentical expected log) := by
  refine foldl_zipIdx_induct sections.toList _ ⟨rfl, SymbolTable.records_empty _, ?_⟩ ?_
  · simp [surveyIssues]
  · exact fun done s after p hl hp => hp.readSection hl

end Survey.Progress

/-- A survey finds the first section that can be the entry and the symbols of all
    sections, and reports on each section in turn. -/
theorem survey_covers (sections : Array Section) (allowIdentical : Bool) (expected : SectionKind)
    (log : Log LinkIssue) :
    (survey sections allowIdentical expected log).1.entry =
        sections.toList.findIdx? (·.kind.isEntry) ∧
      (survey sections allowIdentical expected log).1.symbols.Records allowIdentical
        (definitionsOf sections.toList) ∧
      (survey sections allowIdentical expected log).2.toList =
        log.toList ++ surveyIssues allowIdentical expected sections.toList := by
  obtain ⟨h1, h2, h3⟩ := Survey.Progress.covers_readAll sections allowIdentical expected log
  exact ⟨h1, h2, h3⟩

end InstallerLinker
