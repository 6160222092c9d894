/-
  Installer linker — what the messages of a link depend on.

  No message names a position.  Those about possible entries depend on the sections
  from which a link can start and on their order; those about a name depend on the
  definitions of that name and on their order.  The order of the names among each
  other only decides on the order of the messages.

  * `filter_surveyIssues_congr` says so of the possible entries, and
    `repetitions_perm` of the rows that repeat others;
  * `Symbol.move` moves the definitions of a symbol to other positions;
    `perm_contestedSymbols` and `collisionIssues_move` carry the collisions over;
  * `repetitions_eq_nil` and `contestedSymbols_eq_nil`: where all names differ there
    is nothing to report about them.
-/
import InstallerLinker.Proofs.Link.Selection
import InstallerLinker.Proofs.Ownership

namespace InstallerLinker

/-! ## Possible entries -/

theorem find?_filter_self {α : Type} (p : α → Bool) (l : List α) :
    (l.filter p).find? p = l.find? p := by
  simp only [← List.head?_filter, List.filter_filter, Bool.and_self]

theorem firstStart?_filter (sections : List Section) :
    firstStart? (sections.filter (·.kind.isEntry)) = firstStart? sections :=
  find?_filter_self _ sections

/-- The messages about possible entries are those about the sections from which a
    link can start, as if there were no others. -/
theorem filter_surveyIssues_filter (allowIdentical : Bool) (expected : SectionKind)
    (sections : List Section) :
    (surveyIssues allowIdentical expected (sections.filter (·.kind.isEntry))).filter
        (!·.isRepetition) =
      (surveyIssues allowIdentical expected sections).filter (!·.isRepetition) := by
  have hrep : ∀ earlier ds,
      (repetitionIssues allowIdentical earlier ds).filter (!·.isRepetition) = [] := by
    intro earlier ds
    refine List.filter_eq_nil_iff.2 fun x hx => ?_
    obtain ⟨name, location, original, rfl⟩ := mem_repetitionIssues hx
    exact Bool.false_ne_true
  induction sections using List.reverseRecOn with
  | nil => rfl
  | append_singleton sections s ih =>
    rw [surveyIssues_append_singleton, List.filter_append, List.filter_append, List.filter_append,
      hrep, ← ih]
    cases hs : s.kind.isEntry with
    | false => simp [hs, entryIssues]
    | true =>
      have hself : [s].filter (·.kind.isEntry) = [s] := by simp [hs]
      rw [hself, surveyIssues_append_singleton, List.filter_append, List.filter_append, hrep,
        firstStart?_filter]

theorem filter_surveyIssues_congr (allowIdentical : Bool) (expected : SectionKind)
    {sections sections' : List Section}
    (h : sections'.filter (·.kind.isEntry) = sections.filter (·.kind.isEntry)) :
    (surveyIssues allowIdentical expected sections').filter (!·.isRepetition) =
      (surveyIssues allowIdentical expected sections).filter (!·.isRepetition) := by
  rw [← filter_surveyIssues_filter, h, filter_surveyIssues_filter]

/-! ## Repeated rows -/

section
variable {allowIdentical : Bool} {ds ds' : List Definition}

theorem repetition?_map_move (pick : SectionIndex → SectionIndex) (earlier : List Definition)
    (d : Definition) :
    repetition? allowIdentical (earlier.map (Definition.move pick)) (d.move pick) =
      repetition? allowIdentical earlier d := by
  rw [repetition?, repetition?, List.find?_map]
  cases h : earlier.find? (·.name == d.name) with
  | none =>
    have h' : earlier.find? ((·.name == (d.move pick).name) ∘ Definition.move pick) = none := h
    rw [h']
    rfl
  | some owner =>
    have h' : earlier.find? ((·.name == (d.move pick).name) ∘ Definition.move pick) =
      some owner := h
    rw [h']
    rfl

theorem repetitions_map_move (pick : SectionIndex → SectionIndex) (ds : List Definition) :
    repetitions allowIdentical (ds.map (Definition.move pick)) = repetitions allowIdentical ds := by
  induction ds using List.reverseRecOn with
  | nil => rfl
  | append_singleton ds d ih =>
    rw [List.map_append, List.map_singleton, repetitions_append_singleton,
      repetitions_append_singleton, ih, repetition?_map_move]

/-- The message warns of a repeated row of the given name. -/
def LinkIssue.isRepetitionOf (name : String) : LinkIssue → Bool
  | .identicalDuplicateRow n _ _ => n == name
  | _ => false

theorem repetition?_definitionsNamed (ds : List Definition) (d : Definition) :
    repetition? allowIdentical (definitionsNamed d.name ds) d =
      repetition? allowIdentical ds d := by
  rw [repetition?, repetition?, definitionsNamed, find?_filter_self]

theorem filter_isRepetitionOf_repetition? (name : String) (ds : List Definition) (d : Definition) :
    (repetition? allowIdentical ds d).toList.filter (·.isRepetitionOf name) =
      if d.name = name then (repetition? allowIdentical ds d).toList else [] := by
  unfold repetition?
  split
  · simp
  · split <;> simp [LinkIssue.isRepetitionOf, List.filter_cons]

/-- The warnings about a name are those about the definitions of that name, as if
    there were no others. -/
theorem filter_isRepetitionOf_repetitions (name : String) (ds : List Definition) :
    (repetitions allowIdentical ds).filter (·.isRepetitionOf name) =
      repetitions allowIdentical (definitionsNamed name ds) := by
  induction ds using List.reverseRecOn with
  | nil => rfl
  | append_singleton ds d ih =>
    rw [repetitions_append_singleton, List.filter_append, ih, filter_isRepetitionOf_repetition?,
      definitionsNamed_append_singleton]
    split
    · next hname =>
      rw [repetitions_append_singleton, ← hname, repetition?_definitionsNamed]
    · rw [List.append_nil, List.append_nil]

theorem exists_of_mem_repetitions {x : LinkIssue} (h : x ∈ repetitions allowIdentical ds) :
    ∃ name location original, x = .identicalDuplicateRow name location original := by
  have happend := repetitions_append allowIdentical [] ds
  rw [List.nil_append, show repetitions allowIdentical [] = [] from rfl, List.nil_append] at happend
  exact mem_repetitionIssues (happend ▸ h)

/-- The warnings depend on the definitions of each name, up to their order. -/
theorem repetitions_perm (h : ∀ name, definitionsNamed name ds' = definitionsNamed name ds) :
    (repetitions allowIdentical ds').Perm (repetitions allowIdentical ds) := by
  refine List.perm_iff_count.2 fun x => ?_
  by_cases hx : ∃ name location original, x = LinkIssue.identicalDuplicateRow name location original
  · obtain ⟨name, location, original, rfl⟩ := hx
    have hself : (LinkIssue.identicalDuplicateRow name location original).isRepetitionOf name =
        true := beq_self_eq_true name
    rw [← List.count_filter hself, ← List.count_filter (l := repetitions _ ds) hself,
      filter_isRepetitionOf_repetitions, filter_isRepetitionOf_repetitions, h]
  · rw [List.count_eq_zero_of_not_mem (mt exists_of_mem_repetitions hx),
      List.count_eq_zero_of_not_mem (mt exists_of_mem_repetitions hx)]

/-- The messages of a survey depend on the sections from which a link can start and
    on the warnings about repeated rows, up to their order. -/
theorem surveyIssues_perm (expected : SectionKind) {sections sections' : List Section}
    (hstarts : sections'.filter (·.kind.isEntry) = sections.filter (·.kind.isEntry))
    (hrep : (repetitions allowIdentical (definitionsOf sections')).Perm
      (repetitions allowIdentical (definitionsOf sections))) :
    (surveyIssues allowIdentical expected sections').Perm
      (surveyIssues allowIdentical expected sections) := by
  have hother := filter_surveyIssues_congr allowIdentical expected hstarts
  rw [← filter_isRepetition_surveyIssues allowIdentical expected,
    ← filter_isRepetition_surveyIssues allowIdentical expected] at hrep
  exact (List.filter_append_perm _ _).symm.trans
    ((hrep.append (.of_eq hother)).trans (List.filter_append_perm _ _))

/-- Without repeated rows, the order is the same as well. -/
theorem surveyIssues_eq_filter (expected : SectionKind) {sections : List Section}
    (h : repetitions allowIdentical (definitionsOf sections) = []) :
    surveyIssues allowIdentical expected sections =
      (surveyIssues allowIdentical expected sections).filter (!·.isRepetition) := by
  rw [← filter_isRepetition_surveyIssues allowIdentical expected, List.filter_eq_nil_iff] at h
  exact (List.filter_eq_self.2 fun x hx => by simpa using h x hx).symm

end

/-! ## Collisions -/

/-- The symbol with its definitions in sections at other positions. -/
def Symbol.move (pick : SectionIndex → SectionIndex) (s : Symbol) : Symbol :=
  ⟨s.owner.move pick, s.duplicates.map (Definition.move pick)⟩

@[simp] theorem Symbol.name_move (pick : SectionIndex → SectionIndex) (s : Symbol) :
    (s.move pick).name = s.name := rfl

@[simp] theorem Symbol.hasDuplicates_move (pick : SectionIndex → SectionIndex) (s : Symbol) :
    (s.move pick).hasDuplicates = s.hasDuplicates := by
  simp [move, hasDuplicates, Array.isEmpty]

theorem definitionsNamed_map_move (pick : SectionIndex → SectionIndex) (name : String)
    (ds : List Definition) :
    definitionsNamed name (ds.map (Definition.move pick)) =
      (definitionsNamed name ds).map (Definition.move pick) :=
  List.filter_map

theorem symbolOf_map_move (allowIdentical : Bool) (pick : SectionIndex → SectionIndex)
    (ds : List Definition) :
    symbolOf allowIdentical (ds.map (Definition.move pick)) =
      (symbolOf allowIdentical ds).map (Symbol.move pick) := by
  cases ds with
  | nil => rfl
  | cons owner later =>
    have hlater : (later.map (Definition.move pick)).filter
        (fun d => !(owner.move pick).repeats allowIdentical d) =
          (later.filter fun d => !owner.repeats allowIdentical d).map (Definition.move pick) :=
      List.filter_map
    simp only [List.map_cons, symbolOf, hlater, Option.map_some, Symbol.move, List.map_toArray]

theorem collisionIssues_move {pick : SectionIndex → SectionIndex} {reach reach' : Reach}
    (roles : TableRoles) {s : Symbol}
    (h : ∀ d, d = s.owner ∨ d ∈ s.duplicates.toList →
      reach'.includes d.sectionIndex = reach.includes (pick d.sectionIndex)) :
    (s.move pick).collisionIssues reach roles = s.collisionIssues reach' roles := by
  have hexcused : (s.move pick).isExcused reach roles = s.isExcused reach' roles := by
    rw [Symbol.isExcused, Symbol.isExcused, h s.owner (Or.inl rfl)]
    rfl
  have hduplicates : (s.move pick).reachedDuplicates reach =
      (s.reachedDuplicates reach').map (Definition.move pick) := by
    rw [Symbol.reachedDuplicates, Symbol.reachedDuplicates,
      show (s.move pick).duplicates.toList = s.duplicates.toList.map (Definition.move pick) by
        simp [Symbol.move], List.filter_map]
    congr 1
    exact List.filter_congr fun d hd => (h d (Or.inr hd)).symm
  rw [Symbol.collisionIssues, Symbol.collisionIssues, hexcused, hduplicates]
  cases s.reachedDuplicates reach' with
  | nil => rfl
  | cons d ds =>
    rw [List.map_cons]
    congr 2
    simp only [List.map_cons, List.map_map]
    rfl

namespace SymbolTable.Records
variable {allowIdentical : Bool} {ds ds' : List Definition} {t t' : SymbolTable}

/-- The definitions of a symbol are among those recorded. -/
theorem mem_of_contestedSymbols (h : t.Records allowIdentical ds) {s : Symbol}
    (hs : s ∈ t.contestedSymbols) {d : Definition} (hd : d = s.owner ∨ d ∈ s.duplicates.toList) :
    d ∈ ds := by
  obtain ⟨k, hk⟩ := exists_get?_of_mem_contestedSymbols hs
  obtain ⟨later, hlater, hduplicates⟩ := h.definitionsNamed_eq_cons hk
  have hmem : d ∈ definitionsNamed s.name ds := by
    rw [hlater]
    rcases hd with rfl | hd
    · exact List.mem_cons_self ..
    · exact List.mem_cons_of_mem _ (List.mem_of_mem_filter (hduplicates ▸ hd))
  exact List.mem_of_mem_filter hmem

/-- Tables that record the same definitions of each name contest the same names,
    up to their order. -/
theorem perm_contestedSymbols (h : t.Records allowIdentical ds) (h' : t'.Records allowIdentical ds')
    {pick : SectionIndex → SectionIndex}
    (hnamed : ∀ name, definitionsNamed name (ds'.map (Definition.move pick)) =
      definitionsNamed name ds) :
    (t'.contestedSymbols.map (Symbol.move pick)).Perm t.contestedSymbols := by
  have hfind : ∀ name, t.find? name = (t'.find? name).map (Symbol.move pick) := by
    intro name
    rw [h.find?_eq, h'.find?_eq, ← hnamed, definitionsNamed_map_move, symbolOf_map_move]
  have hnodup : (t'.contestedSymbols.map (Symbol.move pick)).Nodup := by
    refine List.Nodup.of_map (·.name) ?_
    rw [List.map_map]
    exact h'.nodup_map_name_contestedSymbols
  refine (List.perm_ext_iff_of_nodup hnodup h.nodup_contestedSymbols).2 fun s => ?_
  rw [List.mem_map, h.mem_contestedSymbols_iff, hfind]
  constructor
  · rintro ⟨s', hs', rfl⟩
    obtain ⟨hs', hdup⟩ := h'.mem_contestedSymbols_iff.1 hs'
    rw [Symbol.name_move, hs', Symbol.hasDuplicates_move]
    exact ⟨rfl, hdup⟩
  · rintro ⟨hs, hdup⟩
    obtain ⟨s', hs', rfl⟩ := Option.map_eq_some_iff.1 hs
    rw [Symbol.name_move] at hs'
    rw [Symbol.hasDuplicates_move] at hdup
    exact ⟨s', h'.mem_contestedSymbols_iff.2 ⟨hs', hdup⟩, rfl⟩

/-- The collisions are the same, up to their order. -/
theorem collisions_perm (h : t.Records allowIdentical ds) (h' : t'.Records allowIdentical ds')
    {pick : SectionIndex → SectionIndex}
    (hnamed : ∀ name, definitionsNamed name (ds'.map (Definition.move pick)) =
      definitionsNamed name ds) {reach reach' : Reach} (roles : TableRoles)
    (hincludes : ∀ d ∈ ds', reach'.includes d.sectionIndex = reach.includes (pick d.sectionIndex)) :
    (t'.contestedSymbols.flatMap (Symbol.collisionIssues reach' roles)).Perm
      (t.contestedSymbols.flatMap (Symbol.collisionIssues reach roles)) := by
  have hmove : t'.contestedSymbols.flatMap (Symbol.collisionIssues reach' roles) =
      (t'.contestedSymbols.map (Symbol.move pick)).flatMap
        (Symbol.collisionIssues reach roles) := by
    rw [List.flatMap_map]
    refine List.flatMap_congr fun s hs => (collisionIssues_move roles fun d hd => ?_).symm
    exact hincludes d (h'.mem_of_contestedSymbols hs hd)
  rw [hmove]
  exact (h.perm_contestedSymbols h' hnamed).flatMap_right _

end SymbolTable.Records

/-! ## Names that differ -/

section
variable {allowIdentical : Bool} {ds : List Definition}

/-- Where no name is defined twice, no row repeats another. -/
theorem repetitions_eq_nil (allowIdentical : Bool) (h : (ds.map (·.name)).Nodup) :
    repetitions allowIdentical ds = [] := by
  induction ds using List.reverseRecOn with
  | nil => rfl
  | append_singleton ds d ih =>
    rw [List.map_append, List.map_singleton, List.nodup_append] at h
    obtain ⟨hds, -, hd⟩ := h
    have hnone : ds.find? (·.name == d.name) = none := by
      rw [List.find?_eq_none]
      intro d' hd'
      simpa using hd d'.name (List.mem_map_of_mem hd') d.name (List.mem_singleton_self _)
    rw [repetitions_append_singleton, ih hds, repetition?, hnone]
    rfl

/-- Where no name is defined twice, none is contested. -/
theorem contestedSymbols_eq_nil {t : SymbolTable} (ht : t.Records allowIdentical ds)
    (h : (ds.map (·.name)).Nodup) : t.contestedSymbols = [] := by
  refine List.eq_nil_iff_forall_not_mem.2 fun s hs => ?_
  obtain ⟨-, hdup⟩ := ht.mem_contestedSymbols_iff.1 hs
  obtain ⟨k, hk⟩ := SymbolTable.exists_get?_of_mem_contestedSymbols hs
  obtain ⟨later, hlater, hduplicates⟩ := ht.definitionsNamed_eq_cons hk
  obtain ⟨d, hd⟩ := Symbol.exists_firstDuplicate? hdup
  have hmem : d ∈ later := List.mem_of_mem_filter (hduplicates ▸ List.mem_of_mem_head? hd)
  have hnamed : d ∈ definitionsNamed s.name ds := hlater ▸ List.mem_cons_of_mem _ hmem
  have hname : d.name = s.name := (mem_definitionsNamed_iff.1 hnamed).2
  have hnodup : ((s.owner :: later).map (·.name)).Nodup := by
    rw [← hlater]
    exact h.sublist (List.filter_sublist.map _)
  exact (List.nodup_cons.1 hnodup).1 (List.mem_map.2 ⟨d, hmem, hname⟩)

end

end InstallerLinker
