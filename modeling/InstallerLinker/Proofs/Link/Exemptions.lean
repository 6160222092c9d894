/-
  Installer linker — links that exempt more tables.

  Which tables are exempt from the report of conflicts bears on that report alone, and there on
  the conflicts of these tables alone.  The messages about a conflict stand together, so that
  the log of a link that exempts more is found by leaving groups of messages out.

  * `LinkSettings.exempting` changes the tables that are exempt; `fst_link_exempting` says that
    the result of a link does not depend on them, and `exists_toList_link_exempting` gives the
    log;
  * `conflictsIn_exempting`: the conflicts that remain are those of the other tables;
  * `issueGroups` recovers the groups from the messages (`issueGroups_flatten`);
  * `link_exempting` is the result.
-/
import Mathlib.Data.List.SplitBy
import InstallerLinker.Proofs.Link.ConflictGroups
import InstallerLinker.Proofs.Reach.Dependence

namespace InstallerLinker

/-! ## What depends on the exempt tables -/

/-- The settings with other tables exempt from the report of conflicts. -/
def LinkSettings.exempting (settings : LinkSettings) (tables : List String) : LinkSettings :=
  { settings with roles := { settings.roles with conflictExemptTables := tables } }

section
variable (settings : LinkSettings) (sections : Array Section) (log : Log LinkIssue)
  (tables : List String)

theorem reachFrom_exempting (symbols : SymbolTable) (entry : SectionIndex) :
    ((settings.exempting tables).scope sections symbols entry).reachFrom entry =
      (settings.scope sections symbols entry).reachFrom entry := by
  have halike : ((settings.exempting tables).scope sections symbols entry).Alike
      (settings.scope sections symbols entry) :=
    ⟨rfl, rfl, fun _ => rfl, rfl, fun _ => rfl, fun _ => rfl⟩
  exact halike.reachFrom_eq entry

/-- What is linked does not depend on the exempt tables. -/
theorem fst_link_exempting :
    (link (settings.exempting tables) sections log).1 = (link settings sections log).1 := by
  cases hentry : sections.toList.findIdx? (·.kind.isEntry) with
  | none => rw [(link_of_no_entry _ hentry log).1, (link_of_no_entry _ hentry log).1]
  | some entry =>
    obtain ⟨symbols, reach, -, hreach, hresult, -⟩ := link_of_entry settings hentry log
    obtain ⟨symbols', reach', -, hreach', hresult', -⟩ :=
      link_of_entry (settings.exempting tables) hentry log
    obtain rfl : symbols' = symbols := (symbols_link hresult').trans (symbols_link hresult).symm
    rw [hresult, hresult', hreach, hreach', reachFrom_exempting]

end

/-! ## The conflicts that remain -/

/-- A conflict remains unless its table is exempt now. -/
theorem conflict?_exempting {allowIdentical : Bool} {roles roles' : TableRoles}
    (h : roles.conflictExemptTables ⊆ roles'.conflictExemptTables) (included : SectionIndex → Bool)
    (ds : List Definition) (name : String) :
    conflict? allowIdentical roles' included ds name =
      (conflict? allowIdentical roles included ds name).filter fun c =>
        c.owner.table.name ∉ roles'.conflictExemptTables := by
  unfold conflict?
  cases definitionsNamed name ds with
  | nil => rfl
  | cons owner later =>
    simp only
    by_cases hexempt : owner.table.name ∈ roles'.conflictExemptTables
    · rw [if_neg fun hc => hc.1 hexempt]
      split
      · rw [Option.filter_some, if_neg (by simpa using hexempt)]
      · rfl
    · have hother : owner.table.name ∉ roles.conflictExemptTables := fun hmem => hexempt (h hmem)
      simp only [hexempt, hother, not_false_eq_true, true_and]
      split
      · rw [Option.filter_some, if_pos (by simpa using hexempt)]
      · rfl

/-- The conflicts that remain are those of the tables that are not exempt now. -/
theorem conflictsIn_exempting (settings : LinkSettings) (sections : Array Section)
    {tables tables' : List String} (h : tables ⊆ tables') (included : SectionIndex → Bool) :
    (settings.exempting tables').conflictsIn sections included =
      ((settings.exempting tables).conflictsIn sections included).filter fun c =>
        c.owner.table.name ∉ tables' := by
  rw [LinkSettings.conflictsIn, LinkSettings.conflictsIn, conflicts, conflicts,
    List.filter_filterMap]
  exact List.filterMap_congr fun name _ => conflict?_exempting h included _ name

section
variable {allowIdentical : Bool} {roles : TableRoles} {ds : List Definition}

/-- The owner of a conflict is the first definition of its name, and its table is not exempt. -/
theorem find?_owner_of_mem_conflicts {included : SectionIndex → Bool} {c : Conflict}
    (h : c ∈ conflicts allowIdentical roles included ds) :
    ds.find? (·.name == c.owner.name) = some c.owner ∧
      c.owner.table.name ∉ roles.conflictExemptTables := by
  obtain ⟨name, -, hc⟩ := List.mem_filterMap.1 h
  obtain rfl := name_owner_conflict? hc
  rw [← head?_definitionsNamed]
  unfold conflict? at hc
  split at hc
  · cases hc
  · next owner later hnamed =>
    simp only at hc
    split at hc
    · next hcounts =>
      have howner : owner = c.owner := congrArg Conflict.owner (Option.some.inj hc)
      rw [hnamed, List.head?_cons, howner]
      exact ⟨rfl, howner ▸ hcounts.1⟩
    · cases hc

/-- Where nothing is included, nothing conflicts. -/
theorem conflicts_of_included_eq_false :
    conflicts allowIdentical roles (fun _ => false) ds = [] := by
  refine List.filterMap_eq_nil_iff.2 fun name _ => ?_
  unfold conflict?
  split
  · rfl
  · exact if_neg fun hc => Bool.false_ne_true hc.2.1

end

/-! ## Groups of messages -/

namespace LinkIssue

/-- Whether the message is about a place where a symbol is defined again. -/
def isRedefinition : LinkIssue → Bool
  | duplicateSymbolLocation .. => true
  | _ => false

/-- Whether the message is about a symbol that is defined in several places, or about one of
    these. -/
def isOfConflict : LinkIssue → Bool
  | conflictingDuplicateSymbol .. | duplicateSymbolLocation .. => true
  | _ => false

theorem isRedefinition_of_isOfConflict {x : LinkIssue} (h : x.isOfConflict = false) :
    x.isRedefinition = false := by
  cases x <;> first | rfl | cases h

end LinkIssue

/-- The messages in groups: each with the redefinitions that follow it. -/
def issueGroups (issues : List LinkIssue) : List (List LinkIssue) :=
  issues.splitBy fun _ next => next.isRedefinition

/-- A message and the redefinitions that follow it. -/
def IsIssueGroup (group : List LinkIssue) : Prop :=
  ∃ first places, group = first :: places ∧ first.isRedefinition = false ∧
    ∀ x ∈ places, x.isRedefinition = true

theorem isIssueGroup_singleton {x : LinkIssue} (h : x.isOfConflict = false) :
    IsIssueGroup [x] :=
  ⟨x, [], rfl, LinkIssue.isRedefinition_of_isOfConflict h, fun _ hx => nomatch hx⟩

theorem Conflict.isIssueGroup_issues (c : Conflict) : IsIssueGroup c.issues := by
  refine ⟨_, _, rfl, rfl, fun x hx => ?_⟩
  obtain ⟨d, -, rfl⟩ := List.mem_map.1 hx
  rfl

/-- The groups are found again among the messages. -/
theorem issueGroups_flatten {groups : List (List LinkIssue)}
    (h : ∀ group ∈ groups, IsIssueGroup group) : issueGroups groups.flatten = groups := by
  refine List.splitBy_flatten (fun hnil => ?_) (fun group hgroup => ?_) ?_
  · obtain ⟨first, places, hne, -⟩ := h [] hnil
    cases hne
  · obtain ⟨first, places, rfl, -, hplaces⟩ := h group hgroup
    refine List.Pairwise.isChain (List.pairwise_cons.2 ⟨hplaces, ?_⟩)
    exact List.pairwise_of_forall_mem_list fun _ _ y hy => hplaces y hy
  · refine List.Pairwise.isChain
      (List.pairwise_of_forall_mem_list fun group hgroup next hnext => ?_)
    obtain ⟨first, places, rfl, -⟩ := h group hgroup
    obtain ⟨first', places', rfl, hfirst', -⟩ := h next hnext
    exact ⟨List.cons_ne_nil _ _, List.cons_ne_nil _ _, hfirst'⟩

/-- Whether a group of messages is about a conflict whose owner is in a table that `p` holds
    of. -/
def isConflictOver (symbols : SymbolTable) (p : String → Bool) : List LinkIssue → Bool
  | .conflictingDuplicateSymbol name _ :: _ => (symbols.find? name).any (p ·.owner.table.name)
  | _ => false

section
variable {symbols : SymbolTable} {p : String → Bool}

theorem isConflictOver_singleton {x : LinkIssue} (h : x.isOfConflict = false) :
    isConflictOver symbols p [x] = false := by
  cases x <;> first | rfl | cases h

theorem Conflict.isConflictOver_issues {c : Conflict}
    (h : (symbols.find? c.owner.name).map (·.owner) = some c.owner) :
    isConflictOver symbols p c.issues = p c.owner.table.name := by
  obtain ⟨s, hs, howner⟩ := Option.map_eq_some_iff.1 h
  rw [Conflict.issues, isConflictOver, hs, Option.any_some, howner]

/-- Leaving the groups about some conflicts out of the messages. -/
theorem flatten_filter_issueGroups {plain : List LinkIssue} {cs : List Conflict}
    (hplain : ∀ x ∈ plain, x.isOfConflict = false)
    (hcs : ∀ c ∈ cs, (symbols.find? c.owner.name).map (·.owner) = some c.owner) :
    ((issueGroups (plain ++ cs.flatMap Conflict.issues)).filter fun group =>
        !isConflictOver symbols p group).flatten =
      plain ++ (cs.filter fun c => !p c.owner.table.name).flatMap Conflict.issues := by
  have hflatten : ∀ cs : List Conflict, (plain.map ([·]) ++ cs.map Conflict.issues).flatten =
      plain ++ cs.flatMap Conflict.issues := by
    intro cs
    rw [List.flatten_append, ← List.flatMap_def, ← List.flatMap_def, List.flatMap_singleton']
  have hgroup : ∀ group ∈ plain.map ([·]) ++ cs.map Conflict.issues, IsIssueGroup group := by
    intro group hmem
    rcases List.mem_append.1 hmem with hmem | hmem
    · obtain ⟨x, hx, rfl⟩ := List.mem_map.1 hmem
      exact isIssueGroup_singleton (hplain x hx)
    · obtain ⟨c, -, rfl⟩ := List.mem_map.1 hmem
      exact c.isIssueGroup_issues
  have hplainStays : (plain.map ([·])).filter (fun group => !isConflictOver symbols p group) =
      plain.map ([·]) := by
    refine List.filter_eq_self.2 fun group hmem => ?_
    obtain ⟨x, hx, rfl⟩ := List.mem_map.1 hmem
    rw [isConflictOver_singleton (hplain x hx)]
    rfl
  have hconflicts : (cs.map Conflict.issues).filter (fun group =>
      !isConflictOver symbols p group) =
      (cs.filter fun c => !p c.owner.table.name).map Conflict.issues := by
    rw [List.filter_map]
    refine congrArg _ (List.filter_congr fun c hc => ?_)
    exact congrArg (!·) (Conflict.isConflictOver_issues (hcs c hc))
  rw [← hflatten, issueGroups_flatten hgroup, List.filter_append, hplainStays, hconflicts, hflatten]

end

/-! ## The log -/

theorem isOfConflict_of_mem_surveyIssues {allowIdentical : Bool} {expected : SectionKind}
    {sections : List Section} {x : LinkIssue}
    (h : x ∈ surveyIssues allowIdentical expected sections) : x.isOfConflict = false := by
  obtain ⟨_, _, _, rfl⟩ | ⟨_, _, _, _, rfl⟩ | ⟨_, _, _, rfl⟩ := of_mem_surveyIssues h <;> rfl

/-- Whatever tables are exempt, the same messages come first, and then those about the conflicts
    among the same sections. -/
theorem exists_toList_link_exempting (settings : LinkSettings) (sections : Array Section)
    (log : Log LinkIssue) :
    ∃ plain included, (∀ x ∈ plain, x.isOfConflict = false) ∧ ∀ tables,
      (link (settings.exempting tables) sections log).2.toList = log.toList ++
        (plain ++ ((settings.exempting tables).conflictsIn sections included).flatMap
          Conflict.issues) := by
  cases hentry : sections.toList.findIdx? (·.kind.isEntry) with
  | none =>
    refine ⟨surveyIssues settings.allowIdenticalRows settings.expectedKind sections.toList ++
      [.missingEntrySection settings.expectedKind], fun _ => false,
      List.forall_mem_append.2 ⟨fun _ => isOfConflict_of_mem_surveyIssues, fun x hx => ?_⟩,
      fun tables => ?_⟩
    · obtain rfl := List.mem_singleton.1 hx
      rfl
    · rw [(link_of_no_entry (settings.exempting tables) hentry log).2, LinkSettings.conflictsIn,
        conflicts_of_included_eq_false, List.flatMap_nil, List.append_nil, List.append_assoc]
      rfl
  | some entry =>
    obtain ⟨symbols, reach, -, -, h, -⟩ := link_of_entry settings hentry log
    generalize Linkage.mk sections entry symbols reach = l at h
    refine ⟨surveyIssues settings.allowIdenticalRows settings.expectedKind sections.toList ++
      l.reach.dangling.toList.map DanglingReference.issue, l.includes,
      List.forall_mem_append.2 ⟨fun _ => isOfConflict_of_mem_surveyIssues, fun x hx => ?_⟩,
      fun tables => ?_⟩
    · obtain ⟨d, -, rfl⟩ := List.mem_map.1 hx
      rfl
    · have hl := (fst_link_exempting settings sections log tables).trans h
      rw [(reportCollisions_survey (settings.exempting tables) sections log).2.2 l hl,
        List.append_assoc]
      rfl

/-- **What an exemption affects.**  Links of the same sections with settings that differ in the
    exempt tables alone have the same result.  Where the tables exempt in one are also exempt in
    the other, the other reports the same messages in the same order, without the groups about
    the conflicts whose owner is in a table exempt in it alone. -/
theorem link_exempting (settings : LinkSettings) (sections : Array Section) (log : Log LinkIssue)
    (tables tables' : List String) (h : tables ⊆ tables') :
    (link (settings.exempting tables') sections log).1 =
        (link (settings.exempting tables) sections log).1 ∧
      ∃ reported reported',
        (link (settings.exempting tables) sections log).2.toList = log.toList ++ reported ∧
        (link (settings.exempting tables') sections log).2.toList = log.toList ++ reported' ∧
        reported' = ((issueGroups reported).filter fun group =>
          !isConflictOver
            (survey sections settings.allowIdenticalRows settings.expectedKind log).1.symbols
            (fun table => table ∈ tables' ∧ table ∉ tables) group).flatten := by
  obtain ⟨plain, included, hplain, hlog⟩ := exists_toList_link_exempting settings sections log
  refine ⟨?_, _, _, hlog tables, hlog tables', ?_⟩
  · rw [fst_link_exempting, fst_link_exempting]
  · obtain ⟨-, hsymbols, -⟩ :=
      survey_covers sections settings.allowIdenticalRows settings.expectedKind log
    have hmem : ∀ c ∈ (settings.exempting tables).conflictsIn sections included, _ :=
      fun c hc => find?_owner_of_mem_conflicts hc
    rw [flatten_filter_issueGroups hplain fun c hc =>
        (hsymbols.map_owner_find? _).trans (hmem c hc).1,
      conflictsIn_exempting settings sections h]
    refine congrArg (fun cs => plain ++ List.flatMap Conflict.issues cs)
      (List.filter_congr fun c hc => ?_)
    have hother : c.owner.table.name ∉ tables := (hmem c hc).2
    simp [hother]

/-- A product and a fragment that it needs define the same component and the same property.
    Another component that the product needs is missing. -/
def sharedByTables : Array Section :=
  #[(componentSection "main" .product ["x", "z"] ["a"]).addTable
      ⟨⟨"Property", [], true⟩, [⟨[.string "p"], .unknown⟩]⟩,
    (componentSection "left" .fragment [] ["x", "a"]).addTable
      ⟨⟨"Property", [], true⟩, [⟨[.string "p"], .unknown⟩]⟩]

theorem link_exempting_sharedByTables :
    ["Media"] ⊆ ["Media", "Component"] ∧
    (link (LinkSettings.exempting {} ["Media", "Component"]) sharedByTables ∅).1 =
      (link (LinkSettings.exempting {} ["Media"]) sharedByTables ∅).1 ∧
    ∃ reported reported',
      reported = [.unresolvedReference "Component:z" .unknown,
        .conflictingDuplicateSymbol "Component:a" .unknown,
        .duplicateSymbolLocation "Component:a" .unknown,
        .conflictingDuplicateSymbol "Property:p" .unknown,
        .duplicateSymbolLocation "Property:p" .unknown] ∧
      reported' = [.unresolvedReference "Component:z" .unknown,
        .conflictingDuplicateSymbol "Property:p" .unknown,
        .duplicateSymbolLocation "Property:p" .unknown] ∧
      reported' = ((issueGroups reported).filter fun group =>
        !isConflictOver (survey sharedByTables false .unknown ∅).1.symbols
          (fun table => table ∈ ["Media", "Component"] ∧ table ∉ ["Media"]) group).flatten := by
  have hsub : ["Media"] ⊆ ["Media", "Component"] := by decide
  obtain ⟨hresult, reported, reported', hlog, hlog', hgroups⟩ :=
    link_exempting {} sharedByTables ∅ _ _ hsub
  refine ⟨hsub, hresult, reported, reported', ?_, ?_, hgroups⟩
  · rw [← List.nil_append reported]
    exact hlog.symm.trans (by decide +kernel)
  · rw [← List.nil_append reported']
    exact hlog'.symm.trans (by decide +kernel)

end InstallerLinker
