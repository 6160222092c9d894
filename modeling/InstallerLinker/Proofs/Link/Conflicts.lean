/-
  Installer linker — which conflicts a link reports.

  Who owns a name is settled in the survey, before it is known what is linked.
  A name that two linked sections define is therefore a conflict only if its
  owner is linked too.

  * `MeetTwice` says that two definitions of a name are linked, whoever owns it,
    and `collides_iff` what is needed besides;
  * `conflict_mem_link_iff` says which names a link reports;
  * `conflict_unlike_meetTwice` shows both ways in which this differs from
    `MeetTwice`: an owner that is not linked, and a name that tables share.
-/
import InstallerLinker.Proofs.Link.Report

namespace InstallerLinker

/-! ## Names that meet -/

/-- Two definitions of a name are in sections included.  They differ if a row may
    be repeated. -/
def MeetTwice (allowIdentical : Bool) (included : SectionIndex → Prop) (ds : List Definition)
    (name : String) : Prop :=
  ∃ a b, [a, b].Sublist ds ∧ a.name = name ∧ b.name = name ∧
    included a.sectionIndex ∧ included b.sectionIndex ∧
      (allowIdentical = true → a.row.fields ≠ b.row.fields)

theorem repeats_eq_false_iff {allowIdentical : Bool} {owner d : Definition} :
    owner.repeats allowIdentical d = false ↔
      (allowIdentical = true → owner.row.fields ≠ d.row.fields) := by
  cases allowIdentical <;> simp [Definition.repeats, Row.isIdentical]

/-- Definitions collide if two of the name meet, the owner is included, and its
    table is not exempt. -/
theorem collides_iff {allowIdentical : Bool} {roles : TableRoles} {included : SectionIndex → Prop}
    {ds : List Definition} {name : String} :
    Collides allowIdentical roles included ds name ↔
      (∃ owner, ds.find? (·.name == name) = some owner ∧
        owner.table.name ∉ roles.conflictExemptTables ∧ included owner.sectionIndex) ∧
      MeetTwice allowIdentical included ds name := by
  have hfind : ds.find? (·.name == name) = (definitionsNamed name ds).head? :=
    List.head?_filter.symm
  constructor
  · rintro ⟨owner, later, hnamed, hexempt, hin, d, hd, hrep, hdin⟩
    have hsub : [owner, d].Sublist (definitionsNamed name ds) := by
      rw [hnamed]
      exact (List.singleton_sublist.2 hd).cons_cons owner
    have hname : ∀ x ∈ [owner, d], x.name = name := fun x hx =>
      (mem_definitionsNamed_iff.1 (hsub.subset hx)).2
    refine ⟨⟨owner, by rw [hfind, hnamed, List.head?_cons], hexempt, hin⟩, owner, d,
      hsub.trans List.filter_sublist, hname _ (by simp), hname _ (by simp), hin, hdin, ?_⟩
    exact repeats_eq_false_iff.1 hrep
  · rintro ⟨⟨owner, howner, hexempt, hin⟩, a, b, hsub, ha, hb, hain, hbin, hdiff⟩
    rw [hfind, List.head?_eq_some_iff] at howner
    obtain ⟨later, hnamed⟩ := howner
    refine ⟨owner, later, hnamed, hexempt, hin, ?_⟩
    have hpair : [a, b].Sublist (owner :: later) := by
      have := hsub.filter (·.name == name)
      rwa [List.filter_eq_self.2 (by simp [ha, hb]), ← definitionsNamed, hnamed] at this
    have hblater : b ∈ later := by
      have := hpair.tail.subset
      exact this (by simp)
    cases hrep : owner.repeats allowIdentical b with
    | false => exact ⟨b, hblater, hrep, hbin⟩
    | true =>
      -- the owner says what `b` says, so it is not `a`, which is hence a later definition
      obtain ⟨rfl, hsame⟩ : allowIdentical = true ∧ owner.row.fields = b.row.fields := by
        simpa [Definition.repeats] using hrep
      have hother : owner.row.fields ≠ a.row.fields := fun h => hdiff rfl (h.symm.trans hsame)
      refine ⟨a, ?_, repeats_eq_false_iff.2 fun _ => hother, hain⟩
      rcases List.mem_cons.1 (hpair.subset (List.mem_cons_self ..)) with rfl | ha
      · exact absurd rfl hother
      · exact ha

/-! ## Names that are reported -/

/-- The first message about a symbol names it. -/
theorem conflict_mem_collisionIssues_iff {reach : Reach} {roles : TableRoles} {s : Symbol}
    {name : String} :
    (∃ location, .conflictingDuplicateSymbol name location ∈ s.collisionIssues reach roles) ↔
      s.name = name ∧ s.collisionIssues reach roles ≠ [] := by
  unfold Symbol.collisionIssues
  split
  · simp
  · cases s.reachedDuplicates reach with
    | nil => simp
    | cons d ds =>
      have hnot : ∀ location, LinkIssue.conflictingDuplicateSymbol name location ∉
          (d :: ds).map Definition.duplicateIssue := by
        intro location h
        obtain ⟨d, -, hd⟩ := List.mem_map.1 h
        exact LinkIssue.noConfusion hd
      constructor
      · rintro ⟨location, h⟩
        rcases List.mem_cons.1 h with h | h
        · exact ⟨(LinkIssue.conflictingDuplicateSymbol.inj h).1.symm, List.cons_ne_nil _ _⟩
        · exact absurd h (hnot location)
      · rintro ⟨rfl, -⟩
        exact ⟨_, List.mem_cons_self ..⟩

theorem conflict_not_mem_surveyIssues {allowIdentical : Bool} {expected : SectionKind}
    {sections : List Section} {name : String} {location : Location} :
    .conflictingDuplicateSymbol name location ∉ surveyIssues allowIdentical expected sections := by
  intro h
  obtain ⟨_, _, _, h⟩ | ⟨_, _, _, _, h⟩ | ⟨_, _, _, h⟩ := of_mem_surveyIssues h <;>
    exact LinkIssue.noConfusion h

/-- **The conflicts of a link.**  A link reports a name as a conflict if and only
    if two definitions of it meet in the sections reached and the owner of the
    name is one that counts: its section is reached and its table not exempt. -/
theorem conflict_mem_link_iff (settings : LinkSettings) (sections : Array Section)
    (log : Log LinkIssue) (l : Linkage) (h : (link settings sections log).1 = some l) :
    ∃ reported, (link settings sections log).2.toList = log.toList ++ reported ∧
      ∀ name, (∃ location, .conflictingDuplicateSymbol name location ∈ reported) ↔
        (∃ owner, (definitionsOf sections.toList).find? (·.name == name) = some owner ∧
          owner.table.name ∉ settings.roles.conflictExemptTables ∧
          l.includes owner.sectionIndex = true) ∧
        MeetTwice settings.allowIdenticalRows (l.includes · = true)
          (definitionsOf sections.toList) name := by
  cases hentry : sections.toList.findIdx? (·.kind.isEntry) with
  | none =>
    rw [(link_of_no_entry settings hentry log).1] at h
    cases h
  | some entry =>
    obtain ⟨symbols, reach, hsymbols, -, hresult, hlog⟩ := link_of_entry settings hentry log
    rw [hresult] at h
    cases h
    refine ⟨_, hlog, fun name => ?_⟩
    have hdangling : ∀ location, LinkIssue.conflictingDuplicateSymbol name location ∉
        reach.dangling.toList.map DanglingReference.issue := by
      intro location h
      obtain ⟨d, -, hd⟩ := List.mem_map.1 h
      exact LinkIssue.noConfusion hd
    refine Iff.trans ?_ ((exists_collisionIssues_iff hsymbols).trans collides_iff)
    simp only [List.mem_append, conflict_not_mem_surveyIssues, hdangling, false_or,
      List.mem_flatMap]
    constructor
    · rintro ⟨location, s, hs, h⟩
      exact ⟨s, hs, conflict_mem_collisionIssues_iff.1 ⟨location, h⟩⟩
    · rintro ⟨s, hs, h⟩
      obtain ⟨location, hmem⟩ := conflict_mem_collisionIssues_iff.2 h
      exact ⟨location, s, hs, hmem⟩

/-- A section that refers to some components and defines others. -/
def componentSection (id : String) (kind : SectionKind) (references components : List String) :
    Section where
  id := id
  kind := kind
  tables :=
    [⟨.crossReferences TableRoles.standardCrossReferenceTable,
        references.map fun key => ⟨[.string "Component", .string key], .unknown⟩⟩,
      ⟨⟨"Component", [], true⟩, components.map fun key => ⟨[.string key], .unknown⟩⟩]
  location := .unknown

/-- The row of a `componentSection` for the component `key`. -/
def componentDefinition (i : SectionIndex) (key : String) : Definition :=
  ⟨i, ⟨"Component", [], true⟩, ⟨[.string key], .unknown⟩⟩

/-- A product and a fragment that it needs define the same component. -/
def definedTwice : Array Section :=
  #[componentSection "main" .product ["x"] ["a"], componentSection "left" .fragment [] ["x", "a"]]

theorem conflict_mem_link_definedTwice :
    ∃ l, (link {} definedTwice ∅).1 = some l ∧
      ∃ reported, (link {} definedTwice ∅).2.toList = (∅ : Log LinkIssue).toList ++ reported ∧
        ∃ location, .conflictingDuplicateSymbol "Component:a" location ∈ reported := by
  have hlink : ((link {} definedTwice ∅).1.map fun l => (l.includes 0, l.includes 1)) =
      some (true, true) := by decide +kernel
  obtain ⟨l, hl, hin⟩ := Option.map_eq_some_iff.1 hlink
  obtain ⟨h0, h1⟩ := Prod.mk.inj hin
  obtain ⟨reported, hlog, hiff⟩ := conflict_mem_link_iff {} definedTwice ∅ l hl
  refine ⟨l, hl, reported, hlog, (hiff "Component:a").2 ⟨⟨componentDefinition 0 "a", ?_, ?_, h0⟩,
    componentDefinition 0 "a", componentDefinition 1 "a", ?_, ?_, ?_, h0, h1, nofun⟩⟩
  all_goals decide +kernel

/-- The definition that owns the component `a` is in a section that nothing
    needs; two other sections that define it are needed for other components. -/
def strayOwner : Array Section :=
  #[componentSection "spare" .fragment [] ["a"], componentSection "main" .product ["x", "y"] [],
    componentSection "left" .fragment [] ["x", "a"],
    componentSection "right" .fragment [] ["y", "a"]]

/-- Two tables whose rows have the same name; the second is exempt. -/
def sharedName : Array Section :=
  #[⟨"main", .product, [⟨⟨"A", [], true⟩, [⟨[.string "B:c"], .unknown⟩]⟩,
    ⟨⟨"A:B", [], true⟩, [⟨[.string "c"], .unknown⟩]⟩], .unknown⟩]

/-- It is not the same to be reported as a conflict and to be defined by two rows
    that are linked, of tables that are not exempt. -/
theorem conflict_unlike_meetTwice :
    (∃ l, (link {} strayOwner ∅).1 = some l ∧
      MeetTwice false (l.includes · = true) ((definitionsOf strayOwner.toList).filter fun d =>
        !TableRoles.standard.isConflictExempt d.table.name) "Component:a" ∧
      ¬ ∃ location, .conflictingDuplicateSymbol "Component:a" location ∈
        (link {} strayOwner ∅).2.toList) ∧
    (∃ l, (link ⟨false, .unknown, none, TableRoles.standard.exempt "A:B"⟩ sharedName ∅).1 = some l ∧
      ¬ MeetTwice false (l.includes · = true) ((definitionsOf sharedName.toList).filter fun d =>
        !(TableRoles.standard.exempt "A:B").isConflictExempt d.table.name) "A:B:c" ∧
      ∃ location, .conflictingDuplicateSymbol "A:B:c" location ∈
        (link ⟨false, .unknown, none, TableRoles.standard.exempt "A:B"⟩ sharedName ∅).2.toList) := by
  constructor
  · have hlink : ((link {} strayOwner ∅).1.map fun l => (l.includes 2, l.includes 3)) =
        some (true, true) := by decide +kernel
    obtain ⟨l, hl, hin⟩ := Option.map_eq_some_iff.1 hlink
    obtain ⟨h2, h3⟩ := Prod.mk.inj hin
    have hlog : (link {} strayOwner ∅).2.toList = [] := by decide +kernel
    refine ⟨l, hl, ⟨componentDefinition 2 "a", componentDefinition 3 "a", ?_, ?_, ?_, h2, h3,
      nofun⟩, by simp [hlog]⟩
    all_goals decide +kernel
  · have hlink : (link ⟨false, .unknown, none, TableRoles.standard.exempt "A:B"⟩ sharedName
        ∅).1.isSome = true := by decide +kernel
    obtain ⟨l, hl⟩ := Option.isSome_iff_exists.1 hlink
    refine ⟨l, hl, ?_, .unknown, by decide +kernel⟩
    rintro ⟨a, b, hsub, -⟩
    have hone : ((definitionsOf sharedName.toList).filter fun d =>
        !(TableRoles.standard.exempt "A:B").isConflictExempt d.table.name).length = 1 := by
      decide +kernel
    have := hsub.length_le
    rw [hone] at this
    exact absurd this (by simp)

end InstallerLinker
