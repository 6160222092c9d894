/-
  Installer linker — what becomes of each definition.

  A survey reads all definitions in one order.  Each of them owns its name, is a
  duplicate of the owner, or merely repeats it where that is allowed; which of
  these it is depends on the definitions before it alone.

  * `firstDefinitions`, `duplicateDefinitions` and `repetitions` sort a list of
    definitions into these three, each by looking back (`collect`);
  * `KeepsOrder` says that the owners of a table, and the contested symbols, stand
    in the order in which such definitions came up; `KeepsOrder.define` is its
    step;
  * `AccountsFor` puts together what a table and the messages say of all
    definitions, and `survey_accountsFor` that a survey brings that about.
-/
import Mathlib.Data.List.Induction
import InstallerLinker.Proofs.Survey

namespace InstallerLinker

/-! ## Definitions and those before them -/

/-- What `f` makes of each element of a list and the elements before it. -/
def collect {α β : Type} (f : List α → α → Option β) (l : List α) : List β :=
  l.zipIdx.filterMap fun p => f (l.take p.2) p.1

theorem collect_append_singleton {α β : Type} (f : List α → α → Option β) (l : List α) (a : α) :
    collect f (l ++ [a]) = collect f l ++ (f l a).toList := by
  unfold collect
  rw [zipIdx_append_singleton, List.filterMap_append]
  congr 1
  · refine List.filterMap_congr fun p hp => ?_
    have hlt : p.2 < l.length := by simpa using List.snd_lt_add_of_mem_zipIdx hp
    rw [List.take_append_of_le_length (Nat.le_of_lt hlt)]
  · rw [List.filterMap_cons, List.take_left]
    cases f l a <;> rfl

/-- The definition itself if none before it has its name. -/
def first? (earlier : List Definition) (d : Definition) : Option Definition :=
  match earlier.find? (·.name == d.name) with
  | none => some d
  | some _ => none

/-- The definition itself if the first one before it of its name does not say the
    same. -/
def duplicate? (allowIdentical : Bool) (earlier : List Definition) (d : Definition) :
    Option Definition :=
  match earlier.find? (·.name == d.name) with
  | none => none
  | some owner => if owner.repeats allowIdentical d then none else some d

/-- The first definition of each name, in order. -/
def firstDefinitions (ds : List Definition) : List Definition := collect first? ds

/-- The definitions that are neither the first of their name nor repeat that, in
    order. -/
def duplicateDefinitions (allowIdentical : Bool) (ds : List Definition) : List Definition :=
  collect (duplicate? allowIdentical) ds

/-- The warnings about the definitions that repeat the first of their name, in
    order. -/
def repetitions (allowIdentical : Bool) (ds : List Definition) : List LinkIssue :=
  collect (repetition? allowIdentical) ds

section
variable {allowIdentical : Bool} {earlier : List Definition} {d owner : Definition}

theorem first?_of_find?_eq_none (h : earlier.find? (·.name == d.name) = none) :
    first? earlier d = some d := by
  rw [first?, h]

theorem first?_of_find?_eq_some (h : earlier.find? (·.name == d.name) = some owner) :
    first? earlier d = none := by
  rw [first?, h]

theorem duplicate?_of_find?_eq_none (h : earlier.find? (·.name == d.name) = none) :
    duplicate? allowIdentical earlier d = none := by
  rw [duplicate?, h]

theorem duplicate?_of_find?_eq_some (h : earlier.find? (·.name == d.name) = some owner) :
    duplicate? allowIdentical earlier d =
      if owner.repeats allowIdentical d then none else some d := by
  rw [duplicate?, h]

theorem eq_of_duplicate?_eq_some {d' : Definition}
    (h : duplicate? allowIdentical earlier d = some d') : d' = d := by
  unfold duplicate? at h
  split at h
  · cases h
  · split at h
    · cases h
    · exact (Option.some.inj h).symm

end

section
variable (allowIdentical : Bool) (ds : List Definition) (d : Definition)

theorem firstDefinitions_append_singleton :
    firstDefinitions (ds ++ [d]) = firstDefinitions ds ++ (first? ds d).toList :=
  collect_append_singleton _ _ _

theorem duplicateDefinitions_append_singleton :
    duplicateDefinitions allowIdentical (ds ++ [d]) =
      duplicateDefinitions allowIdentical ds ++ (duplicate? allowIdentical ds d).toList :=
  collect_append_singleton _ _ _

theorem repetitions_append_singleton :
    repetitions allowIdentical (ds ++ [d]) =
      repetitions allowIdentical ds ++ (repetition? allowIdentical ds d).toList :=
  collect_append_singleton _ _ _

theorem head?_definitionsNamed (name : String) :
    (definitionsNamed name ds).head? = ds.find? (·.name == name) :=
  List.head?_filter

/-- The duplicates of a name are those of its symbol. -/
theorem definitionsNamed_duplicateDefinitions (name : String) :
    definitionsNamed name (duplicateDefinitions allowIdentical ds) =
      ((symbolOf allowIdentical (definitionsNamed name ds)).map (·.duplicates.toList)).getD [] := by
  induction ds using List.reverseRecOn with
  | nil => rfl
  | append_singleton ds d ih =>
    rw [duplicateDefinitions_append_singleton, definitionsNamed, List.filter_append,
      ← definitionsNamed, ih, definitionsNamed_append_singleton]
    by_cases hname : d.name = name
    · have hfind := head?_definitionsNamed ds name
      rw [← hname] at hfind ⊢
      rw [if_pos rfl]
      cases hds : definitionsNamed d.name ds with
      | nil =>
        rw [hds] at hfind
        rw [duplicate?_of_find?_eq_none hfind.symm]
        rfl
      | cons owner later =>
        rw [hds] at hfind
        rw [duplicate?_of_find?_eq_some hfind.symm, List.cons_append, symbolOf, symbolOf,
          List.filter_append]
        cases hrep : owner.repeats allowIdentical d <;> simp [hrep]
    · have hnone : (duplicate? allowIdentical ds d).toList.filter (·.name == name) = [] := by
        refine List.filter_eq_nil_iff.2 fun d' hd' => ?_
        rw [eq_of_duplicate?_eq_some (Option.mem_toList.1 hd')]
        simpa using hname
      rw [if_neg hname, hnone, List.append_nil, List.append_nil]

end

/-! ## The order of the symbols -/

/-- The duplicate that was met first. -/
def Symbol.firstDuplicate? (s : Symbol) : Option Definition := s.duplicates.toList.head?

theorem Symbol.firstDuplicate?_eq_none_iff {s : Symbol} :
    s.firstDuplicate? = none ↔ s.hasDuplicates = false := by
  simp [firstDuplicate?, hasDuplicates]

theorem Symbol.exists_firstDuplicate? {s : Symbol} (h : s.hasDuplicates = true) :
    ∃ d, s.firstDuplicate? = some d := by
  rw [← Option.ne_none_iff_exists', ne_eq, firstDuplicate?_eq_none_iff, h]
  exact Bool.noConfusion

theorem Symbol.firstDuplicate?_addDuplicate (s : Symbol) (d : Definition) :
    (s.addDuplicate d).firstDuplicate? = s.firstDuplicate?.or (some d) := by
  rw [firstDuplicate?, addDuplicate, Array.toList_push, List.head?_append]
  rfl

namespace SymbolTable

/-- The symbols of the table, and the contested ones among them, stand in the order
    of the definitions that made them so. -/
structure KeepsOrder (allowIdentical : Bool) (t : SymbolTable) (ds : List Definition) : Prop where
  records : t.Records allowIdentical ds
  owners : t.toList.map (·.owner) = firstDefinitions ds
  contested : t.contestedSymbols.map (·.firstDuplicate?) =
    (firstDefinitions (duplicateDefinitions allowIdentical ds)).map some

variable {allowIdentical : Bool} {t : SymbolTable} {ds : List Definition} {d : Definition}
  {k : SymbolIndex} {s : Symbol}

theorem keepsOrder_empty (allowIdentical : Bool) : KeepsOrder allowIdentical ∅ [] where
  records := records_empty allowIdentical
  owners := rfl
  contested := rfl

theorem map_owner_addDuplicate (t : SymbolTable) (k : SymbolIndex) (first : Bool) (d : Definition) :
    (t.addDuplicate k first d).toList.map (·.owner) = t.toList.map (·.owner) := by
  refine List.ext_getElem? fun j => ?_
  rw [toList_addDuplicate, List.getElem?_map, List.getElem?_map, List.getElem?_modify]
  split
  · simp only [Option.map_eq_map, Option.map_map]
    rfl
  · simp only [Option.map_eq_map, Option.map_id']

namespace Records

theorem contestedSymbols_addOwner (h : t.Records allowIdentical ds) :
    (t.addOwner d).contestedSymbols = t.contestedSymbols := by
  rw [contestedSymbols, contested_addOwner]
  refine List.filterMap_congr fun k hk => ?_
  obtain ⟨s, hs, -⟩ := (h.mem_contested_iff k).1 hk
  rw [get?_addOwner, if_neg (Nat.ne_of_lt (get?_lt_size hs))]

/-- A symbol that is contested already keeps its first duplicate; one that was not
    joins the others with the new one. -/
theorem map_firstDuplicate?_addDuplicate (h : t.Records allowIdentical ds)
    (hk : t.get? k = some s) :
    (t.addDuplicate k (!s.hasDuplicates) d).contestedSymbols.map (·.firstDuplicate?) =
      t.contestedSymbols.map (·.firstDuplicate?) ++
        if s.hasDuplicates then [] else [some d] := by
  have hold : t.contested.toList.filterMap (fun j =>
      ((t.addDuplicate k (!s.hasDuplicates) d).get? j).map (·.firstDuplicate?)) =
      t.contested.toList.filterMap fun j => (t.get? j).map (·.firstDuplicate?) := by
    refine List.filterMap_congr fun j hj => ?_
    obtain ⟨s', hs', hdup⟩ := (h.mem_contested_iff j).1 hj
    rw [get?_addDuplicate]
    split
    · obtain ⟨d', hd'⟩ := Symbol.exists_firstDuplicate? hdup
      rw [hs', Option.map_some, Option.map_some, Option.map_some,
        Symbol.firstDuplicate?_addDuplicate, hd', Option.some_or]
    · rfl
  rw [contestedSymbols, contestedSymbols, List.map_filterMap, List.map_filterMap, ← hold,
    contested_addDuplicate]
  cases hdup : s.hasDuplicates with
  | true => simp
  | false =>
    have hnew : (s.addDuplicate d).firstDuplicate? = some d := by
      rw [Symbol.firstDuplicate?_addDuplicate, Symbol.firstDuplicate?_eq_none_iff.2 hdup,
        Option.none_or]
    simp [get?_addDuplicate, hk, hnew]

theorem find?_duplicateDefinitions (h : t.Records allowIdentical ds) (hk : t.get? k = some s) :
    (duplicateDefinitions allowIdentical ds).find? (·.name == s.name) = s.firstDuplicate? := by
  rw [← head?_definitionsNamed, definitionsNamed_duplicateDefinitions, ← h.find?_eq,
    h.find?_of_get? hk]
  rfl

end Records

namespace KeepsOrder

theorem addOwner (h : KeepsOrder allowIdentical t ds) (hd : t.lookup d.name = none) :
    KeepsOrder allowIdentical (t.addOwner d) (ds ++ [d]) where
  records := h.records.addOwner hd
  owners := by
    rw [toList_addOwner, List.map_append, h.owners, firstDefinitions_append_singleton,
      first?_of_find?_eq_none (h.records.find?_definition_of_lookup hd)]
    rfl
  contested := by
    rw [h.records.contestedSymbols_addOwner, h.contested, duplicateDefinitions_append_singleton,
      duplicate?_of_find?_eq_none (h.records.find?_definition_of_lookup hd), Option.toList_none,
      List.append_nil]

section
variable (h : KeepsOrder allowIdentical t ds) (hk : t.get? k = some s) (hname : s.name = d.name)
include h hk hname

theorem repeated (hrep : s.owner.repeats allowIdentical d = true) :
    KeepsOrder allowIdentical t (ds ++ [d]) := by
  have hfind := hname ▸ h.records.find?_definition_of_get? hk
  refine ⟨h.records.repeated hk hname hrep, ?_, ?_⟩
  · rw [firstDefinitions_append_singleton, first?_of_find?_eq_some hfind, Option.toList_none,
      List.append_nil, h.owners]
  · rw [duplicateDefinitions_append_singleton, duplicate?_of_find?_eq_some hfind, if_pos hrep,
      Option.toList_none, List.append_nil, h.contested]

theorem addDuplicate (hrep : s.owner.repeats allowIdentical d = false) :
    KeepsOrder allowIdentical (t.addDuplicate k (!s.hasDuplicates) d) (ds ++ [d]) := by
  have hfind := hname ▸ h.records.find?_definition_of_get? hk
  have hdups := hname ▸ h.records.find?_duplicateDefinitions hk
  refine ⟨h.records.addDuplicate hk hname hrep, ?_, ?_⟩
  · rw [firstDefinitions_append_singleton, first?_of_find?_eq_some hfind, Option.toList_none,
      List.append_nil, map_owner_addDuplicate, h.owners]
  · rw [h.records.map_firstDuplicate?_addDuplicate hk, h.contested,
      duplicateDefinitions_append_singleton, duplicate?_of_find?_eq_some hfind, hrep,
      if_neg Bool.false_ne_true,
      Option.toList_some, firstDefinitions_append_singleton, List.map_append]
    cases hdup : s.hasDuplicates with
    | false =>
      rw [first?_of_find?_eq_none (hdups.trans (Symbol.firstDuplicate?_eq_none_iff.2 hdup))]
      rfl
    | true =>
      obtain ⟨d', hd'⟩ := Symbol.exists_firstDuplicate? hdup
      rw [first?_of_find?_eq_some (hdups.trans hd')]
      rfl

end

theorem define (h : KeepsOrder allowIdentical t ds) (d : Definition) :
    KeepsOrder allowIdentical (t.define allowIdentical d).1 (ds ++ [d]) := by
  rcases h.records.define_cases d with ⟨hd, he⟩ | ⟨k, s, hk, hname, ⟨hrep, he⟩ | ⟨hrep, he⟩⟩
  · rw [he]
    exact h.addOwner hd
  · rw [he]
    exact h.repeated hk hname hrep
  · rw [he]
    exact h.addDuplicate hk hname hrep

end KeepsOrder

end SymbolTable

namespace Survey.Progress
variable {sections : Array Section} {allowIdentical : Bool} {expected : SectionKind}

theorem symbols_define (p : Progress) (d : Definition) :
    (p.define allowIdentical d).symbols = (p.symbols.define allowIdentical d).1 := by
  obtain ⟨entry, symbols, log⟩ := p
  rw [define]
  rcases symbols.define allowIdentical d with ⟨symbols', _ | issue⟩ <;> rfl

theorem keepsOrder_foldl_define {p : Progress} {earlier : List Definition} (ds : List Definition)
    (h : p.symbols.KeepsOrder allowIdentical earlier) :
    (ds.foldl (define allowIdentical) p).symbols.KeepsOrder allowIdentical (earlier ++ ds) := by
  induction ds generalizing p earlier with
  | nil => rwa [List.append_nil]
  | cons d ds ih =>
    have hd := h.define d
    rw [← symbols_define] at hd
    rw [List.foldl_cons, List.append_cons]
    exact ih hd

theorem keepsOrder_readAll (sections : Array Section) (allowIdentical : Bool)
    (expected : SectionKind) (log : Log LinkIssue) :
    (readAll sections allowIdentical expected log).symbols.KeepsOrder allowIdentical
      (definitionsOf sections.toList) := by
  refine foldl_zipIdx_induct (P := fun done (p : Progress) => p.symbols.KeepsOrder allowIdentical
    (definitionsOf done)) sections.toList _ (SymbolTable.keepsOrder_empty _) ?_
  intro done s after p hl hp
  rw [definitionsOf_append_singleton]
  refine keepsOrder_foldl_define _ ?_
  rwa [symbols_noteEntry]

end Survey.Progress

theorem keepsOrder_survey (sections : Array Section) (allowIdentical : Bool)
    (expected : SectionKind) (log : Log LinkIssue) :
    (survey sections allowIdentical expected log).1.symbols.KeepsOrder allowIdentical
      (definitionsOf sections.toList) :=
  Survey.Progress.keepsOrder_readAll sections allowIdentical expected log

/-! ## The messages -/

/-- The message warns of a definition that repeats an earlier one. -/
def LinkIssue.isRepetition : LinkIssue → Bool
  | .identicalDuplicateRow .. => true
  | _ => false

section
variable (allowIdentical : Bool) (expected : SectionKind)

theorem repetitions_append (earlier ds : List Definition) :
    repetitions allowIdentical (earlier ++ ds) =
      repetitions allowIdentical earlier ++ repetitionIssues allowIdentical earlier ds := by
  induction ds generalizing earlier with
  | nil => rw [repetitionIssues, List.append_nil, List.append_nil]
  | cons d ds ih =>
    rw [List.append_cons, ih, repetitions_append_singleton, repetitionIssues, List.append_assoc]

theorem filter_isRepetition_repetitionIssues (earlier ds : List Definition) :
    (repetitionIssues allowIdentical earlier ds).filter (·.isRepetition) =
      repetitionIssues allowIdentical earlier ds := by
  refine List.filter_eq_self.2 fun x hx => ?_
  obtain ⟨name, location, original, rfl⟩ := mem_repetitionIssues hx
  rfl

theorem filter_isRepetition_entryIssues (first : Option Section) (s : Section) :
    (entryIssues expected first s).filter (·.isRepetition) = [] := by
  refine List.filter_eq_nil_iff.2 fun x hx => ?_
  obtain ⟨-, rfl | ⟨f, -, rfl⟩⟩ := mem_entryIssues hx <;> exact Bool.false_ne_true

theorem filter_isRepetition_surveyIssues (sections : List Section) :
    (surveyIssues allowIdentical expected sections).filter (·.isRepetition) =
      repetitions allowIdentical (definitionsOf sections) := by
  induction sections using List.reverseRecOn with
  | nil => rfl
  | append_singleton sections s ih =>
    rw [surveyIssues_append_singleton, definitionsOf_append_singleton, repetitions_append,
      List.filter_append, List.filter_append, ih, filter_isRepetition_entryIssues,
      filter_isRepetition_repetitionIssues, List.nil_append]

end

/-! ## The account of a survey -/

/-- What the table `t` and the messages `issues` say of the definitions `ds`. -/
structure AccountsFor (allowIdentical : Bool) (t : SymbolTable) (issues : List LinkIssue)
    (ds : List Definition) : Prop where
  /-- The first definition of each name owns it. -/
  owners : t.toList.map (·.owner) = firstDefinitions ds
  /-- The later ones are its duplicates, but for those that repeat it. -/
  duplicates : ∀ s ∈ t.toList, ∃ later, definitionsNamed s.name ds = s.owner :: later ∧
    s.duplicates.toList = later.filter fun d => !s.owner.repeats allowIdentical d
  /-- Each of those gives rise to one warning. -/
  repetitions : issues.filter (·.isRepetition) = repetitions allowIdentical ds
  lookup_iff : ∀ name k, t.lookup name = some k ↔ ∃ s, t.toList[k]? = some s ∧ s.name = name
  mem_contested_iff : ∀ s, s ∈ t.contestedSymbols ↔ s ∈ t.toList ∧ s.hasDuplicates = true
  nodup_contested : t.contestedSymbols.Nodup
  /-- The contested symbols stand in the order of their first duplicates. -/
  contested : t.contestedSymbols.map (·.firstDuplicate?) =
    (firstDefinitions (duplicateDefinitions allowIdentical ds)).map some

theorem SymbolTable.mem_toList_iff {t : SymbolTable} {s : Symbol} :
    s ∈ t.toList ↔ ∃ k, t.get? k = some s := by
  simp only [get?_eq_getElem?_toList, List.mem_iff_getElem?]

theorem SymbolTable.Records.nodup_contestedSymbols {t : SymbolTable} {allowIdentical : Bool}
    {ds : List Definition} (h : t.Records allowIdentical ds) : t.contestedSymbols.Nodup := by
  refine h.nodup_contested.filterMap fun k k' s hk hk' => ?_
  exact Option.some.inj ((h.lookup_of_get? hk).symm.trans (h.lookup_of_get? hk'))

/-- No two contested symbols have the same name. -/
theorem SymbolTable.Records.nodup_map_name_contestedSymbols {t : SymbolTable}
    {allowIdentical : Bool} {ds : List Definition} (h : t.Records allowIdentical ds) :
    (t.contestedSymbols.map (·.name)).Nodup := by
  refine h.nodup_contestedSymbols.map_on fun s hs s' hs' hname => ?_
  have hfind := (h.mem_contestedSymbols_iff.1 hs).1
  rw [hname, (h.mem_contestedSymbols_iff.1 hs').1] at hfind
  exact (Option.some.inj hfind).symm

theorem SymbolTable.KeepsOrder.accountsFor {t : SymbolTable} {allowIdentical : Bool}
    {issues : List LinkIssue} {ds : List Definition} (h : t.KeepsOrder allowIdentical ds)
    (hissues : issues.filter (·.isRepetition) = repetitions allowIdentical ds) :
    AccountsFor allowIdentical t issues ds where
  owners := h.owners
  duplicates s hs := by
    obtain ⟨k, hk⟩ := mem_toList_iff.1 hs
    exact h.records.definitionsNamed_eq_cons hk
  repetitions := hissues
  lookup_iff name k := by
    rw [← get?_eq_getElem?_toList]
    exact h.records.lookup_iff name k
  mem_contested_iff s := by
    rw [h.records.mem_contestedSymbols_iff, find?_eq_some_iff, mem_toList_iff]
    refine and_congr_left fun _ => exists_congr fun k => ?_
    exact ⟨And.right, fun hk => ⟨h.records.lookup_of_get? hk, hk⟩⟩
  nodup_contested := h.records.nodup_contestedSymbols
  contested := h.contested

/-- A survey accounts for all definitions: none of them is lost, and none is
    recorded twice.  A duplicate is a mere definition, so it has no duplicates. -/
theorem survey_accountsFor (sections : Array Section) (allowIdentical : Bool)
    (expected : SectionKind) (log : Log LinkIssue) :
    ∃ issues,
      (survey sections allowIdentical expected log).2.toList = log.toList ++ issues ∧
      AccountsFor allowIdentical (survey sections allowIdentical expected log).1.symbols issues
        (definitionsOf sections.toList) := by
  obtain ⟨-, -, hlog⟩ := survey_covers sections allowIdentical expected log
  refine ⟨_, hlog, SymbolTable.KeepsOrder.accountsFor ?_ ?_⟩
  · exact Survey.Progress.keepsOrder_readAll sections allowIdentical expected log
  · exact filter_isRepetition_surveyIssues allowIdentical expected sections.toList

end InstallerLinker
