/-
  Installer linker — how conflicts are reported.

  The messages about conflicts come in groups, one for each name: first where the
  name is defined, and then each place in a section included where it is defined
  again.

  * `conflict?` is the conflict about a name, read off the definitions, and
    `conflicts` are all of them, in the order in which the names were first
    defined again;
  * `Records.collisionIssues_eq`: the messages about a symbol are those about the
    conflict of its name;
  * `KeepsOrder.reportCollisions_eq_conflicts` gives the number that is returned and the
    messages for one table, and `reportCollisions_survey` for a link.
-/
import InstallerLinker.Proofs.Growth
import InstallerLinker.Proofs.Link.Conflicts

namespace InstallerLinker

/-! ## Conflicts -/

/-- Definitions of one name that conflict. -/
structure Conflict where
  /-- The first of them. -/
  owner : Definition
  /-- The others, in order. -/
  others : List Definition
  deriving DecidableEq

/-- The messages about a conflict. -/
def Conflict.issues (c : Conflict) : List LinkIssue :=
  .conflictingDuplicateSymbol c.owner.name c.owner.location ::
    c.others.map fun d => .duplicateSymbolLocation c.owner.name d.location

/-- The names that are defined again, in the order in which that first happens. -/
def contestedNames (allowIdentical : Bool) (ds : List Definition) : List String :=
  (firstDefinitions (duplicateDefinitions allowIdentical ds)).map (·.name)

section
variable (allowIdentical : Bool) (roles : TableRoles) (included : SectionIndex → Bool)
  (ds : List Definition)

/-- The conflict about a name.  Its owner counts, and so does at least one of the
    later definitions that do not merely repeat it. -/
def conflict? (name : String) : Option Conflict :=
  match definitionsNamed name ds with
  | [] => none
  | owner :: later =>
    let others := later.filter fun d =>
      included d.sectionIndex && !owner.repeats allowIdentical d
    if owner.table.name ∉ roles.conflictExemptTables ∧ included owner.sectionIndex ∧ others ≠ []
    then some ⟨owner, others⟩
    else none

/-- The conflicts among the definitions. -/
def conflicts : List Conflict :=
  (contestedNames allowIdentical ds).filterMap (conflict? allowIdentical roles included ds)

end

section
variable {allowIdentical : Bool} {roles : TableRoles} {included : SectionIndex → Bool}
  {ds : List Definition}

theorem name_owner_conflict? {name : String} {c : Conflict}
    (h : conflict? allowIdentical roles included ds name = some c) : c.owner.name = name := by
  unfold conflict? at h
  split at h
  · cases h
  · next owner later hnamed =>
    have howner : owner ∈ definitionsNamed name ds := hnamed ▸ List.mem_cons_self ..
    simp only at h
    split at h
    · cases h
      exact (mem_definitionsNamed_iff.1 howner).2
    · cases h

theorem map_name_conflicts_sublist :
    ((conflicts allowIdentical roles included ds).map (·.owner.name)).Sublist
      (contestedNames allowIdentical ds) := by
  rw [conflicts]
  induction contestedNames allowIdentical ds with
  | nil => exact List.Sublist.refl _
  | cons name names ih =>
    rw [List.filterMap_cons]
    cases hc : conflict? allowIdentical roles included ds name with
    | none => exact ih.cons name
    | some c =>
      rw [List.map_cons, name_owner_conflict? hc]
      exact ih.cons_cons name

end

/-! ## The messages about a symbol -/

namespace SymbolTable
variable {allowIdentical : Bool} {t : SymbolTable} {ds : List Definition}

theorem Records.collisionIssues_eq (h : t.Records allowIdentical ds) {k : SymbolIndex} {s : Symbol}
    (hk : t.get? k = some s) (reach : Reach) (roles : TableRoles) :
    s.collisionIssues reach roles =
      (conflict? allowIdentical roles reach.includes ds s.name).toList.flatMap
        Conflict.issues := by
  obtain ⟨later, hlater, hduplicates⟩ := h.definitionsNamed_eq_cons hk
  have hreached : s.reachedDuplicates reach = later.filter fun d =>
      reach.includes d.sectionIndex && !s.owner.repeats allowIdentical d := by
    rw [Symbol.reachedDuplicates, hduplicates, List.filter_filter]
  have hissue : ∀ d ∈ s.reachedDuplicates reach,
      d.duplicateIssue = .duplicateSymbolLocation s.name d.location := by
    intro d hd
    rw [Definition.duplicateIssue,
      h.name_of_mem_duplicates hk (mem_reachedDuplicates_iff.1 hd).1]
  simp only [conflict?, hlater, ← hreached]
  split
  · next hc =>
    rw [collisionIssues_of_reached (isExcused_eq_false_iff.2 ⟨hc.1, hc.2.1⟩) hc.2.2,
      List.map_congr_left hissue]
    simp [Conflict.issues, Symbol.name]
  · next hc =>
    rw [Option.toList_none, List.flatMap_nil, collisionIssues_eq_nil_iff]
    refine or_iff_not_imp_left.2 fun hs => not_not.1 fun hne => hc ?_
    obtain ⟨hexempt, hin⟩ := isExcused_eq_false_iff.1 (Bool.not_eq_true _ ▸ hs)
    exact ⟨hexempt, hin, hne⟩

namespace KeepsOrder

theorem map_name_contestedSymbols (h : KeepsOrder allowIdentical t ds) :
    t.contestedSymbols.map (·.name) = contestedNames allowIdentical ds := by
  have hname : ∀ s ∈ t.contestedSymbols, s.firstDuplicate?.map (·.name) = some s.name := by
    intro s hs
    obtain ⟨-, hdup⟩ := h.records.mem_contestedSymbols_iff.1 hs
    obtain ⟨k, hk⟩ := exists_get?_of_mem_contestedSymbols hs
    obtain ⟨d, hd⟩ := Symbol.exists_firstDuplicate? hdup
    rw [hd, Option.map_some, h.records.name_of_mem_duplicates hk (List.mem_of_mem_head? hd)]
  -- the table is known by the first duplicates, which are options
  refine List.map_injective_iff.2 (fun _ _ => Option.some.inj) ?_
  calc (t.contestedSymbols.map (·.name)).map some
    _ = t.contestedSymbols.map fun s => s.firstDuplicate?.map (·.name) := by
      rw [List.map_map]
      exact (List.map_congr_left hname).symm
    _ = (t.contestedSymbols.map (·.firstDuplicate?)).map (Option.map (·.name)) := by
      rw [List.map_map]
      rfl
    _ = (contestedNames allowIdentical ds).map some := by
      rw [h.contested, contestedNames, List.map_map, List.map_map]
      rfl

/-- The conflicts of a table are those about its contested symbols. -/
theorem conflicts_eq (h : KeepsOrder allowIdentical t ds) (roles : TableRoles)
    (included : SectionIndex → Bool) :
    conflicts allowIdentical roles included ds = t.contestedSymbols.filterMap fun s =>
      conflict? allowIdentical roles included ds s.name := by
  rw [conflicts, ← h.map_name_contestedSymbols, List.filterMap_map]
  rfl

theorem flatMap_collisionIssues (h : KeepsOrder allowIdentical t ds) (reach : Reach)
    (roles : TableRoles) :
    t.contestedSymbols.flatMap (Symbol.collisionIssues reach roles) =
      (conflicts allowIdentical roles reach.includes ds).flatMap Conflict.issues := by
  rw [h.conflicts_eq, List.filterMap_eq_flatMap_toList, List.flatMap_assoc]
  refine List.flatMap_congr fun s hs => ?_
  obtain ⟨k, hk⟩ := exists_get?_of_mem_contestedSymbols hs
  exact h.records.collisionIssues_eq hk reach roles

theorem countP_collisionIssues (h : KeepsOrder allowIdentical t ds) (reach : Reach)
    (roles : TableRoles) :
    (t.contestedSymbols.countP fun s => s.collisionIssues reach roles ≠ []) =
      (conflicts allowIdentical roles reach.includes ds).length := by
  rw [h.conflicts_eq, List.length_filterMap_eq_countP]
  refine List.countP_congr fun s hs => ?_
  obtain ⟨k, hk⟩ := exists_get?_of_mem_contestedSymbols hs
  rw [h.records.collisionIssues_eq hk]
  cases conflict? allowIdentical roles reach.includes ds s.name <;> simp [Conflict.issues]

theorem reportCollisions_eq_conflicts (h : KeepsOrder allowIdentical t ds) (reach : Reach)
    (roles : TableRoles) (log : Log LinkIssue) :
    reportCollisions t reach roles log =
      ((conflicts allowIdentical roles reach.includes ds).length,
        log.extend ((conflicts allowIdentical roles reach.includes ds).flatMap Conflict.issues)) := by
  rw [reportCollisions_eq, h.countP_collisionIssues, h.flatMap_collisionIssues]

theorem nodup_contestedNames (h : KeepsOrder allowIdentical t ds) :
    (contestedNames allowIdentical ds).Nodup :=
  h.map_name_contestedSymbols ▸ h.records.nodup_map_name_contestedSymbols

end KeepsOrder

end SymbolTable

/-! ## The conflicts of a link -/

/-- The conflicts among the sections, where some of them are included. -/
def LinkSettings.conflictsIn (settings : LinkSettings) (sections : Array Section)
    (included : SectionIndex → Bool) : List Conflict :=
  conflicts settings.allowIdenticalRows settings.roles included (definitionsOf sections.toList)

/-- **The messages about conflicts.**  Whatever was reached, one group of messages
    is added for each conflict, and the groups are counted.  No name has two of
    them.  They are the last messages of a link. -/
theorem reportCollisions_survey (settings : LinkSettings) (sections : Array Section)
    (log : Log LinkIssue) :
    (∀ reach log', reportCollisions
        (survey sections settings.allowIdenticalRows settings.expectedKind log).1.symbols
        reach settings.roles log' =
      ((settings.conflictsIn sections reach.includes).length,
        log'.extend ((settings.conflictsIn sections reach.includes).flatMap Conflict.issues))) ∧
    (∀ included, ((settings.conflictsIn sections included).map (·.owner.name)).Nodup) ∧
    ∀ l, (link settings sections log).1 = some l →
      (link settings sections log).2.toList = log.toList ++
        (surveyIssues settings.allowIdenticalRows settings.expectedKind sections.toList ++
          (l.reach.dangling.toList.map DanglingReference.issue ++
            (settings.conflictsIn sections l.includes).flatMap Conflict.issues)) := by
  have horder := keepsOrder_survey sections settings.allowIdenticalRows settings.expectedKind log
  refine ⟨fun reach log' => horder.reportCollisions_eq_conflicts reach settings.roles log', ?_, ?_⟩
  · exact fun included => horder.nodup_contestedNames.sublist map_name_conflicts_sublist
  · intro l hl
    obtain ⟨-, -, -, -, hlog⟩ := of_link_eq_some hl
    rw [symbols_survey, ← symbols_link hl] at horder
    rw [hlog, horder.flatMap_collisionIssues]
    rfl

/-- Two sections that are needed define the component `a` again, and so does one
    that is not.  The component `c` is first defined where it is not needed. -/
def contestedComponents : Array Section :=
  #[componentSection "spare" .fragment [] ["c"],
    componentSection "main" .product ["x", "y"] ["b", "a"],
    componentSection "left" .fragment [] ["x", "a", "c"],
    componentSection "right" .fragment [] ["y", "c", "a", "b"],
    componentSection "rest" .fragment [] ["a"]]

theorem reportCollisions_contestedComponents :
    ∃ l, (link {} contestedComponents ∅).1 = some l ∧
      LinkSettings.conflictsIn {} contestedComponents l.includes =
        [⟨componentDefinition 1 "a", [componentDefinition 2 "a", componentDefinition 3 "a"]⟩,
          ⟨componentDefinition 1 "b", [componentDefinition 3 "b"]⟩] ∧
      (link {} contestedComponents ∅).2.toList =
        [.conflictingDuplicateSymbol "Component:a" .unknown,
          .duplicateSymbolLocation "Component:a" .unknown,
          .duplicateSymbolLocation "Component:a" .unknown,
          .conflictingDuplicateSymbol "Component:b" .unknown,
          .duplicateSymbolLocation "Component:b" .unknown] := by
  have hlink : ((link {} contestedComponents ∅).1.map fun l =>
      (l.reach.dangling.toList, LinkSettings.conflictsIn {} contestedComponents l.includes)) =
      some ([],
        [⟨componentDefinition 1 "a", [componentDefinition 2 "a", componentDefinition 3 "a"]⟩,
          ⟨componentDefinition 1 "b", [componentDefinition 3 "b"]⟩]) := by decide +kernel
  obtain ⟨l, hl, hpair⟩ := Option.map_eq_some_iff.1 hlink
  obtain ⟨hdangling, hconflicts⟩ := Prod.mk.inj hpair
  refine ⟨l, hl, hconflicts, ?_⟩
  rw [(reportCollisions_survey {} contestedComponents ∅).2.2 l hl, hdangling, hconflicts]
  decide +kernel

end InstallerLinker
