/-
  Installer linker — what a link reports.

  The log of a link is that of the survey, followed by the references that lead
  nowhere and by the collisions.  Each part is given here by a list.

  * `Symbol.collisionIssues` are the messages about one symbol, and
    `reportCollisions_eq` says that `reportCollisions` appends those of the
    contested symbols and counts them;
  * `LinkSettings.graph` is the graph of the references as the definitions of the
    sections give it, without a symbol table; a link searches it
    (`graph_scope`);
  * `link_of_entry` gives the result and the log of a link with an entry, and
    `link_of_no_entry` of one without; `of_link_eq_some` starts from a result;
  * `filter_isUnresolved_link` gives the references that a link reports.
-/
import InstallerLinker.Linkage
import InstallerLinker.Proofs.Reach.Exactness
import InstallerLinker.Proofs.Survey

namespace InstallerLinker

/-! ## Collisions -/

/-- The messages about a symbol that collides; none if it does not. -/
def Symbol.collisionIssues (reach : Reach) (roles : TableRoles) (s : Symbol) : List LinkIssue :=
  if s.isExcused reach roles then []
  else
    match s.reachedDuplicates reach with
    | [] => []
    | d :: ds =>
      .conflictingDuplicateSymbol s.name s.owner.location :: (d :: ds).map Definition.duplicateIssue

theorem reportCollision_eq (reach : Reach) (roles : TableRoles) (count : Nat)
    (log : Log LinkIssue) (s : Symbol) :
    reportCollision reach roles count log s =
      (count + if s.collisionIssues reach roles ≠ [] then 1 else 0,
        log.extend (s.collisionIssues reach roles)) := by
  unfold reportCollision Symbol.collisionIssues
  split
  · exact Prod.ext rfl (Log.ext (by simp))
  · cases s.reachedDuplicates reach with
    | nil => exact Prod.ext rfl (Log.ext (by simp))
    | cons d ds => exact Prod.ext rfl (Log.ext (by simp))

/-- The messages are those about the contested symbols, and the number counts the
    symbols that there are messages about. -/
theorem reportCollisions_eq (symbols : SymbolTable) (reach : Reach) (roles : TableRoles)
    (log : Log LinkIssue) :
    reportCollisions symbols reach roles log =
      (symbols.contestedSymbols.countP fun s => s.collisionIssues reach roles ≠ [],
        log.extend (symbols.contestedSymbols.flatMap (Symbol.collisionIssues reach roles))) := by
  suffices h : ∀ (ss : List Symbol) (count : Nat) (log : Log LinkIssue),
      ss.foldl (fun p s => reportCollision reach roles p.1 p.2 s) (count, log) =
        (count + ss.countP fun s => s.collisionIssues reach roles ≠ [],
          log.extend (ss.flatMap (Symbol.collisionIssues reach roles))) by
    exact (h _ _ _).trans (by rw [Nat.zero_add])
  intro ss
  induction ss with
  | nil => exact fun count log => Prod.ext rfl (Log.ext (by simp))
  | cons s ss ih =>
    intro count log
    rw [List.foldl_cons, reportCollision_eq, ih]
    refine Prod.ext ?_ (Log.ext (by simp))
    simp only [List.countP_cons, decide_eq_true_eq]
    omega

theorem toList_reportCollisions (symbols : SymbolTable) (reach : Reach) (roles : TableRoles)
    (log : Log LinkIssue) :
    (reportCollisions symbols reach roles log).2.toList =
      log.toList ++ symbols.contestedSymbols.flatMap (Symbol.collisionIssues reach roles) := by
  rw [reportCollisions_eq, Log.toList_extend]

/-- The definitions of a name collide: the owner of the name is in a section
    included, and so is a later definition that does not merely repeat it. -/
def Collides (allowIdentical : Bool) (roles : TableRoles) (included : SectionIndex → Prop)
    (ds : List Definition) (name : String) : Prop :=
  ∃ owner later, definitionsNamed name ds = owner :: later ∧
    owner.table.name ∉ roles.conflictExemptTables ∧ included owner.sectionIndex ∧
      ∃ d ∈ later, owner.repeats allowIdentical d = false ∧ included d.sectionIndex

theorem mem_collisionIssues {reach : Reach} {roles : TableRoles} {s : Symbol} {x : LinkIssue}
    (h : x ∈ s.collisionIssues reach roles) :
    x = .conflictingDuplicateSymbol s.name s.owner.location ∨
      ∃ d ∈ s.reachedDuplicates reach, x = d.duplicateIssue := by
  unfold Symbol.collisionIssues at h
  split at h
  · exact absurd h List.not_mem_nil
  · cases hd : s.reachedDuplicates reach with
    | nil => exact absurd (hd ▸ h) List.not_mem_nil
    | cons d ds =>
      rw [hd] at h
      rcases List.mem_cons.1 h with rfl | h
      · exact Or.inl rfl
      · obtain ⟨d', hd', rfl⟩ := List.mem_map.1 h
        exact Or.inr ⟨d', hd', rfl⟩

theorem collisionIssues_eq_nil_iff {reach : Reach} {roles : TableRoles} {s : Symbol} :
    s.collisionIssues reach roles = [] ↔
      (s.isExcused reach roles = true ∨ s.reachedDuplicates reach = []) := by
  unfold Symbol.collisionIssues
  split
  · next h => exact ⟨fun _ => Or.inl h, fun _ => rfl⟩
  · next h =>
    cases hd : s.reachedDuplicates reach with
    | nil => exact ⟨fun _ => Or.inr rfl, fun _ => rfl⟩
    | cons d ds => simp [h]

theorem collisionIssues_of_reached {reach : Reach} {roles : TableRoles} {s : Symbol}
    (hs : s.isExcused reach roles = false) (hne : s.reachedDuplicates reach ≠ []) :
    s.collisionIssues reach roles = .conflictingDuplicateSymbol s.name s.owner.location ::
      (s.reachedDuplicates reach).map Definition.duplicateIssue := by
  rw [Symbol.collisionIssues, hs, if_neg Bool.false_ne_true]
  cases hd : s.reachedDuplicates reach with
  | nil => exact absurd hd hne
  | cons d ds => rfl

theorem isExcused_eq_false_iff {reach : Reach} {roles : TableRoles} {s : Symbol} :
    s.isExcused reach roles = false ↔
      s.owner.table.name ∉ roles.conflictExemptTables ∧
        reach.includes s.owner.sectionIndex = true := by
  simp [Symbol.isExcused, TableRoles.isConflictExempt]

theorem mem_reachedDuplicates_iff {reach : Reach} {s : Symbol} {d : Definition} :
    d ∈ s.reachedDuplicates reach ↔ d ∈ s.duplicates.toList ∧ reach.includes d.sectionIndex = true := by
  simp [Symbol.reachedDuplicates]

/-- A name is reported if and only if its definitions collide. -/
theorem exists_collisionIssues_iff {allowIdentical : Bool} {symbols : SymbolTable}
    {ds : List Definition} (h : symbols.Records allowIdentical ds) {reach : Reach}
    {roles : TableRoles} {name : String} :
    (∃ s ∈ symbols.contestedSymbols, s.name = name ∧ s.collisionIssues reach roles ≠ []) ↔
      Collides allowIdentical roles (reach.includes · = true) ds name := by
  constructor
  · rintro ⟨s, hs, rfl, hne⟩
    rw [Ne, collisionIssues_eq_nil_iff, not_or, Bool.not_eq_true, isExcused_eq_false_iff] at hne
    obtain ⟨⟨hexempt, howner⟩, hdup⟩ := hne
    obtain ⟨k, hk⟩ := SymbolTable.exists_get?_of_mem_contestedSymbols hs
    obtain ⟨later, hlater, hdups⟩ := h.definitionsNamed_eq_cons hk
    obtain ⟨d, hd⟩ := List.exists_mem_of_ne_nil _ hdup
    rw [mem_reachedDuplicates_iff, hdups, List.mem_filter, Bool.not_eq_true'] at hd
    exact ⟨s.owner, later, hlater, hexempt, howner, d, hd.1.1, hd.1.2, hd.2⟩
  · rintro ⟨owner, later, hnamed, hexempt, howner, d, hd, hrep, hdin⟩
    have hfind := h.find?_eq name
    rw [hnamed] at hfind
    obtain ⟨k, hlook, hk⟩ := SymbolTable.find?_eq_some_iff.1 hfind
    obtain ⟨s, hs, hname⟩ := (h.lookup_iff _ _).1 hlook
    rw [hk] at hs
    cases hs
    have hmem : d ∈ (later.filter fun d => !owner.repeats allowIdentical d) :=
      List.mem_filter.2 ⟨hd, by simp [hrep]⟩
    refine ⟨_, h.mem_contestedSymbols_iff.2 ⟨h.find?_of_get? hk, ?_⟩, hname, ?_⟩
    · simpa [Symbol.hasDuplicates] using ⟨d, hd, hrep⟩
    · rw [Ne, collisionIssues_eq_nil_iff, not_or, Bool.not_eq_true, isExcused_eq_false_iff]
      exact ⟨⟨hexempt, howner⟩,
        List.ne_nil_of_mem (mem_reachedDuplicates_iff.2 ⟨by simpa using hmem, hdin⟩)⟩

/-! ## The whole link -/

/-- The references between the sections, where the first definition of a name
    owns it. -/
def LinkSettings.graph (settings : LinkSettings) (sections : Array Section)
    (entry : SectionIndex) : ReferenceGraph where
  sections := sections
  owner name := (definitionsOf sections.toList).find? (·.name == name)
  roles := settings.roles
  mergeModule := settings.buildsMergeModule sections entry

theorem graph_scope {settings : LinkSettings} {sections : Array Section} {symbols : SymbolTable}
    {allowIdentical : Bool} (h : symbols.Records allowIdentical (definitionsOf sections.toList))
    (entry : SectionIndex) :
    (settings.scope sections symbols entry).graph = settings.graph sections entry := by
  unfold Scope.graph LinkSettings.graph
  congr 1
  funext name
  exact h.map_owner_find? name

theorem link_of_no_entry (settings : LinkSettings) {sections : Array Section}
    (h : sections.toList.findIdx? (·.kind.isEntry) = none) (log : Log LinkIssue) :
    (link settings sections log).1 = none ∧
      (link settings sections log).2.toList =
        log.toList ++ surveyIssues settings.allowIdenticalRows settings.expectedKind sections.toList ++
          [.missingEntrySection settings.expectedKind] := by
  obtain ⟨hentry, -, hlog⟩ :=
    survey_covers sections settings.allowIdenticalRows settings.expectedKind log
  rcases hs : survey sections settings.allowIdenticalRows settings.expectedKind log with
    ⟨⟨entry, symbols⟩, log'⟩
  rw [hs] at hentry hlog
  obtain rfl : entry = none := hentry.trans h
  simp only at hlog
  simp [link, hs, hlog]

theorem link_of_entry (settings : LinkSettings) {sections : Array Section} {entry : SectionIndex}
    (h : sections.toList.findIdx? (·.kind.isEntry) = some entry) (log : Log LinkIssue) :
    ∃ symbols reach, symbols.Records settings.allowIdenticalRows (definitionsOf sections.toList) ∧
      reach = (settings.scope sections symbols entry).reachFrom entry ∧
      (link settings sections log).1 = some ⟨sections, entry, symbols, reach⟩ ∧
      (link settings sections log).2.toList =
        log.toList ++ (surveyIssues settings.allowIdenticalRows settings.expectedKind sections.toList ++
          (reach.dangling.toList.map DanglingReference.issue ++
            symbols.contestedSymbols.flatMap (Symbol.collisionIssues reach settings.roles))) := by
  obtain ⟨hentry, hsymbols, hlog⟩ :=
    survey_covers sections settings.allowIdenticalRows settings.expectedKind log
  rcases hs : survey sections settings.allowIdenticalRows settings.expectedKind log with
    ⟨⟨entry', symbols⟩, log'⟩
  rw [hs] at hentry hsymbols hlog
  obtain rfl : entry' = some entry := hentry.trans h
  refine ⟨symbols, _, hsymbols, rfl, by simp only [link, hs], ?_⟩
  simp only at hlog
  simp only [link, hs, toList_reportCollisions, Log.toList_extend, hlog, List.append_assoc]

/-- What the result of a link consists of, and what the link reports. -/
theorem of_link_eq_some {settings : LinkSettings} {sections : Array Section} {log : Log LinkIssue}
    {l : Linkage} (h : (link settings sections log).1 = some l) :
    l.sections = sections ∧ sections.toList.findIdx? (·.kind.isEntry) = some l.entry ∧
      l.symbols.Records settings.allowIdenticalRows (definitionsOf sections.toList) ∧
      l.reach = (settings.scope sections l.symbols l.entry).reachFrom l.entry ∧
      (link settings sections log).2.toList = log.toList ++
        (surveyIssues settings.allowIdenticalRows settings.expectedKind sections.toList ++
          (l.reach.dangling.toList.map DanglingReference.issue ++
            l.symbols.contestedSymbols.flatMap
              (Symbol.collisionIssues l.reach settings.roles))) := by
  cases hentry : sections.toList.findIdx? (·.kind.isEntry) with
  | none =>
    rw [(link_of_no_entry settings hentry log).1] at h
    cases h
  | some entry =>
    obtain ⟨symbols, reach, hsymbols, hreach, hresult, hlog⟩ := link_of_entry settings hentry log
    rw [hresult] at h
    cases h
    exact ⟨rfl, rfl, hsymbols, hreach, hlog⟩

/-- A link includes what the references reach from its entry. -/
theorem includes_iff_reaches {settings : LinkSettings} {sections : Array Section}
    {symbols : SymbolTable} {allowIdentical : Bool}
    (h : symbols.Records allowIdentical (definitionsOf sections.toList)) (entry i : SectionIndex) :
    ((settings.scope sections symbols entry).reachFrom entry).includes i = true ↔
      (settings.graph sections entry).Reaches entry i := by
  rw [Scope.includes_reachFrom_iff, graph_scope h]

/-! ## The messages about references -/

/-- The message is about a reference that leads nowhere. -/
def LinkIssue.isUnresolved : LinkIssue → Bool
  | .unresolvedReference .. => true
  | _ => false

theorem filter_isUnresolved_surveyIssues (allowIdentical : Bool) (expected : SectionKind)
    (sections : List Section) :
    (surveyIssues allowIdentical expected sections).filter (·.isUnresolved) = [] := by
  refine List.filter_eq_nil_iff.2 fun x hx => ?_
  obtain ⟨_, _, _, rfl⟩ | ⟨_, _, _, _, rfl⟩ | ⟨_, _, _, rfl⟩ := of_mem_surveyIssues hx <;>
    exact Bool.false_ne_true

theorem filter_isUnresolved_collisionIssues (symbols : List Symbol) (reach : Reach)
    (roles : TableRoles) :
    (symbols.flatMap (Symbol.collisionIssues reach roles)).filter (·.isUnresolved) = [] := by
  refine List.filter_eq_nil_iff.2 fun x hx => ?_
  obtain ⟨s, -, hx⟩ := List.mem_flatMap.1 hx
  obtain rfl | ⟨d, -, rfl⟩ := mem_collisionIssues hx <;> exact Bool.false_ne_true

theorem filter_isUnresolved_dangling (ds : List DanglingReference) :
    (ds.map DanglingReference.issue).filter (·.isUnresolved) = ds.map DanglingReference.issue := by
  refine List.filter_eq_self.2 fun x hx => ?_
  obtain ⟨d, -, rfl⟩ := List.mem_map.1 hx
  rfl

/-- The references that a link reports are those that lead nowhere. -/
theorem filter_isUnresolved_link {settings : LinkSettings} {sections : Array Section}
    {log : Log LinkIssue} {l : Linkage} (h : (link settings sections log).1 = some l) :
    (link settings sections log).2.toList.filter (·.isUnresolved) =
      log.toList.filter (·.isUnresolved) ++
        l.reach.dangling.toList.map DanglingReference.issue := by
  obtain ⟨-, -, -, -, hlog⟩ := of_link_eq_some h
  rw [hlog]
  simp only [List.filter_append, filter_isUnresolved_surveyIssues, filter_isUnresolved_dangling,
    filter_isUnresolved_collisionIssues, List.nil_append, List.append_nil]

end InstallerLinker
