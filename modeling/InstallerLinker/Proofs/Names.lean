/-
  Installer linker — what the name of a symbol tells.

  A definition and a reference form the name of a symbol each in its own way, and a name is
  all that they have in common.  Where the separators occur in nothing that a name is made
  of, the name tells the table and the key, so that rows share a name only if they mean the
  same thing, and a reference finds a symbol only if it asks for it.

  * `TableSchema.renderedKeys` reads the key of a row along the columns of its table, and
    `keyTexts_eq` says that names are made of it;
  * `PlainlyNamed` is the condition on the sections;
  * `SymbolTable.TellsKeys` says what follows for a table of their symbols, and
    `tellsKeys_survey` that it does.
-/
import InstallerLinker.Proofs.Ownership
import InstallerLinker.Reference

namespace InstallerLinker

/-! ## Keys -/

/-- How a field stands in a key; one that is missing or has no value stands for nothing. -/
def renderedText : Option Field → String
  | none | some .null => ""
  | some (.number n) => toString n
  | some (.string s) => s

/-- The fields in the columns that are marked as primary key. -/
def markedTexts : List Column → List Field → List String
  | [], _ => []
  | c :: cs, fs =>
    if c.isPrimaryKey then renderedText fs.head? :: markedTexts cs fs.tail
    else markedTexts cs fs.tail

/-- The key of a row: the fields in the columns marked, or the first field if none is. -/
def TableSchema.renderedKeys (s : TableSchema) (r : Row) : List String :=
  match markedTexts s.columns r.fields with
  | [] => [renderedText r.fields.head?]
  | text :: texts => text :: texts

theorem keyText_eq (r : Row) (i : Nat) : r.keyText i = renderedText r.fields[i]? := by
  rw [Row.keyText, Row.field?]
  rcases r.fields[i]? with _ | _ | _ | _ <;> rfl

theorem map_marked_range (cs : List Column) (fs : List Field) :
    ((List.range cs.length).filter fun i => (cs[i]?.map (·.isPrimaryKey)).getD false).map
      (fun i => renderedText fs[i]?) = markedTexts cs fs := by
  induction cs generalizing fs with
  | nil => rfl
  | cons c cs ih =>
    have htail : (((List.range cs.length).map Nat.succ).filter fun i =>
        ((c :: cs)[i]?.map (·.isPrimaryKey)).getD false).map (fun i => renderedText fs[i]?) =
        markedTexts cs fs.tail := by
      rw [List.filter_map, List.map_map, ← ih]
      refine List.map_congr_left fun i _ => ?_
      rw [List.getElem?_tail]
      rfl
    rw [List.length_cons, List.range_succ_eq_map, List.filter_cons, markedTexts]
    cases hc : c.isPrimaryKey <;> simp [hc, htail, List.head?_eq_getElem?]

/-- Names are made of keys. -/
theorem keyTexts_eq (s : TableSchema) (r : Row) : s.keyTexts r = s.renderedKeys r := by
  have hmarked : s.markedColumns.map r.keyText = markedTexts s.columns r.fields := by
    rw [← map_marked_range, TableSchema.markedColumns]
    exact List.map_congr_left fun i _ => keyText_eq r i
  rw [TableSchema.keyTexts, TableSchema.keyColumns, TableSchema.renderedKeys, ← hmarked]
  cases s.markedColumns with
  | nil => simp [keyText_eq, List.head?_eq_getElem?]
  | cons i is => rfl

theorem renderedKeys_ne_nil (s : TableSchema) (r : Row) : s.renderedKeys r ≠ [] := by
  unfold TableSchema.renderedKeys
  split <;> exact List.cons_ne_nil _ _

/-! ## Names -/

theorem symbolName_eq (t : Table) (row : Row) :
    t.schema.symbolName row =
      t.name ++ tableSeparator ++ keySeparator.intercalate (t.schema.renderedKeys row) := by
  rw [TableSchema.symbolName, keyTexts_eq, Table.name]

/-- What stands before and after the first separator can be told. -/
theorem append_cons_eq_iff {α : Type} {c : α} {xs xs' ys ys' : List α} (h : c ∉ xs)
    (h' : c ∉ xs') : xs ++ c :: ys = xs' ++ c :: ys' ↔ xs = xs' ∧ ys = ys' := by
  constructor
  · intro heq
    induction xs generalizing xs' with
    | nil =>
      cases xs' with
      | nil => exact ⟨rfl, List.tail_eq_of_cons_eq heq⟩
      | cons x' xs' => exact absurd (List.head_eq_of_cons_eq heq ▸ List.mem_cons_self ..) h'
    | cons x xs ih =>
      cases xs' with
      | nil => exact absurd (List.head_eq_of_cons_eq heq ▸ List.mem_cons_self ..) h
      | cons x' xs' =>
        obtain ⟨rfl, htail⟩ := List.cons.inj heq
        obtain ⟨rfl, hys⟩ :=
          ih (List.not_mem_of_not_mem_cons h) (List.not_mem_of_not_mem_cons h') htail
        exact ⟨rfl, hys⟩
  · rintro ⟨rfl, rfl⟩
    rfl

/-- A colon that is no part of a table's name divides it from the key. -/
theorem append_colon_eq_iff {table table' keys keys' : String} (h : ':' ∉ table.toList)
    (h' : ':' ∉ table'.toList) :
    table ++ tableSeparator ++ keys = table' ++ tableSeparator ++ keys' ↔
      table = table' ∧ keys = keys' := by
  have hlist : ∀ a b : String, (a ++ tableSeparator ++ b).toList = a.toList ++ ':' :: b.toList := by
    intro a b
    simp [tableSeparator]
  rw [← String.toList_inj, hlist, hlist, append_cons_eq_iff h h', String.toList_inj,
    String.toList_inj]

/-- Slashes that are no part of a key divide the keys from each other, however many there
    are. -/
theorem intercalate_slash_inj {texts texts' : List String} (hne : texts ≠ []) (hne' : texts' ≠ [])
    (h : ∀ text ∈ texts, '/' ∉ text.toList) (h' : ∀ text ∈ texts', '/' ∉ text.toList) :
    keySeparator.intercalate texts = keySeparator.intercalate texts' ↔ texts = texts' := by
  have hsplit : ∀ texts : List String, texts ≠ [] → (∀ text ∈ texts, '/' ∉ text.toList) →
      (keySeparator.intercalate texts).toList.splitOn '/' = texts.map String.toList := by
    intro texts hne h
    rw [String.toList_intercalate]
    refine List.splitOn_intercalate '/' ?_ (by simpa using hne)
    simpa using h
  constructor
  · intro heq
    have hlists := hsplit texts hne h
    rw [heq, hsplit texts' hne' h'] at hlists
    exact (List.map_injective_iff.2 (fun _ _ => String.toList_injective) hlists).symm
  · rintro rfl
    rfl

/-! ## Sections whose names tell keys -/

/-- The row stands in the table, and the table is one of the sections that define symbols. -/
def SymbolRow (sections : Array Section) (t : Table) (row : Row) : Prop :=
  (∃ s ∈ sections.toList, t ∈ s.tables) ∧ t.schema.definesSymbols = true ∧ row ∈ t.rows

/-- No table that defines symbols has a colon in its name, and no key a slash. -/
structure PlainlyNamed (sections : Array Section) : Prop where
  table : ∀ s ∈ sections.toList, ∀ t ∈ s.tables, t.schema.definesSymbols = true →
    ':' ∉ t.name.toList
  key : ∀ s ∈ sections.toList, ∀ t ∈ s.tables, t.schema.definesSymbols = true →
    ∀ row ∈ t.rows, ∀ text ∈ t.schema.renderedKeys row, '/' ∉ text.toList

/-- The definitions are the rows that define symbols, each with its section. -/
theorem mem_definitionsOf_iff {sections : List Section} {d : Definition} :
    d ∈ definitionsOf sections ↔ ∃ s, sections[d.sectionIndex]? = some s ∧
      ∃ t ∈ s.tables, t.schema.definesSymbols = true ∧ t.schema = d.table ∧ d.row ∈ t.rows := by
  simp only [definitionsOf, Section.definitions, Section.symbolTables, List.mem_flatMap,
    List.mem_map, List.mem_filter, Prod.exists, List.mem_zipIdx_iff_getElem?]
  constructor
  · rintro ⟨s, i, hs, t, ⟨ht, hdef⟩, row, hrow, rfl⟩
    exact ⟨s, hs, t, ht, hdef, rfl, hrow⟩
  · rintro ⟨s, hs, t, ht, hdef, htable, hrow⟩
    exact ⟨s, d.sectionIndex, hs, t, ⟨ht, hdef⟩, d.row, hrow, by rw [htable]⟩

theorem exists_symbolRow {sections : Array Section} {d : Definition}
    (h : d ∈ definitionsOf sections.toList) :
    ∃ t, t.schema = d.table ∧ SymbolRow sections t d.row := by
  obtain ⟨s, hs, t, ht, hdef, htable, hrow⟩ := mem_definitionsOf_iff.1 h
  exact ⟨t, htable, ⟨s, List.mem_of_getElem? hs, ht⟩, hdef, hrow⟩

theorem SymbolRow.exists_definition {sections : Array Section} {t : Table} {row : Row}
    (h : SymbolRow sections t row) : ∃ i, ⟨i, t.schema, row⟩ ∈ definitionsOf sections.toList := by
  obtain ⟨⟨s, hs, ht⟩, hdef, hrow⟩ := h
  obtain ⟨i, hi⟩ := List.mem_iff_getElem?.1 hs
  exact ⟨i, mem_definitionsOf_iff.2 ⟨s, hi, t, ht, hdef, rfl, hrow⟩⟩

namespace PlainlyNamed
variable {sections : Array Section} {t t' : Table} {row row' : Row}

theorem not_mem_name (h : PlainlyNamed sections) (hrow : SymbolRow sections t row) :
    ':' ∉ t.name.toList := by
  obtain ⟨⟨s, hs, ht⟩, hdef, -⟩ := hrow
  exact h.table s hs t ht hdef

theorem not_mem_key (h : PlainlyNamed sections) (hrow : SymbolRow sections t row) :
    ∀ text ∈ t.schema.renderedKeys row, '/' ∉ text.toList := by
  obtain ⟨⟨s, hs, ht⟩, hdef, hrow⟩ := hrow
  exact h.key s hs t ht hdef row hrow

/-- Rows are called the same if and only if table and key are the same. -/
theorem symbolName_eq_iff (h : PlainlyNamed sections) (hrow : SymbolRow sections t row)
    (hrow' : SymbolRow sections t' row') :
    t.schema.symbolName row = t'.schema.symbolName row' ↔
      t.name = t'.name ∧ t.schema.renderedKeys row = t'.schema.renderedKeys row' := by
  rw [symbolName_eq, symbolName_eq,
    append_colon_eq_iff (h.not_mem_name hrow) (h.not_mem_name hrow'),
    intercalate_slash_inj (renderedKeys_ne_nil _ _) (renderedKeys_ne_nil _ _)
      (h.not_mem_key hrow) (h.not_mem_key hrow')]

/-- A row is called what a reference asks for if and only if it says so. -/
theorem symbolName_eq_targetName_iff (h : PlainlyNamed sections) (hrow : SymbolRow sections t row)
    {r : Reference} (hr : ':' ∉ r.table.toList) :
    t.schema.symbolName row = r.targetName ↔
      t.name = r.table ∧ "/".intercalate (t.schema.renderedKeys row) = r.keys := by
  rw [symbolName_eq, Reference.targetName, append_colon_eq_iff (h.not_mem_name hrow) hr,
    keySeparator]

end PlainlyNamed

/-- The names in a table of the symbols of some sections tell the keys of their rows. -/
structure SymbolTable.TellsKeys (symbols : SymbolTable) (sections : Array Section) : Prop where
  name_eq_iff : ∀ t row t' row', SymbolRow sections t row → SymbolRow sections t' row' →
    (t.schema.symbolName row = t'.schema.symbolName row' ↔
      t.name = t'.name ∧ t.schema.renderedKeys row = t'.schema.renderedKeys row')
  /-- An owner and its duplicates are rows of tables of one name, with one key. -/
  duplicates : ∀ s ∈ symbols.toList, ∀ d ∈ s.duplicates.toList,
    d.table.name = s.owner.table.name ∧
      d.table.renderedKeys d.row = s.owner.table.renderedKeys s.owner.row
  /-- A reference finds a symbol if and only if there is a row that it asks for. -/
  isSome_lookup_iff : ∀ r : Reference, ':' ∉ r.table.toList →
    ((symbols.lookup r.targetName).isSome = true ↔ ∃ t row, SymbolRow sections t row ∧
      t.name = r.table ∧ "/".intercalate (t.schema.renderedKeys row) = r.keys)

/-- **Names and references mean the same.**  Where no name of a table has a colon and no key
    a slash, symbols are told apart by their tables and keys. -/
theorem tellsKeys_survey (sections : Array Section) (h : PlainlyNamed sections)
    (allowIdentical : Bool) (expected : SectionKind) (log : Log LinkIssue) :
    (survey sections allowIdentical expected log).1.symbols.TellsKeys sections := by
  obtain ⟨-, hrecords, -⟩ := survey_covers sections allowIdentical expected log
  refine ⟨fun t row t' row' hrow hrow' => h.symbolName_eq_iff hrow hrow', ?_, ?_⟩
  · intro s hs d hd
    obtain ⟨k, hk⟩ := SymbolTable.mem_toList_iff.1 hs
    obtain ⟨later, hlater, hduplicates⟩ := hrecords.definitionsNamed_eq_cons hk
    have howner : s.owner ∈ definitionsNamed s.name (definitionsOf sections.toList) :=
      hlater ▸ List.mem_cons_self ..
    have hdup : d ∈ definitionsNamed s.name (definitionsOf sections.toList) :=
      hlater ▸ List.mem_cons_of_mem _ (List.mem_of_mem_filter (hduplicates ▸ hd))
    rw [mem_definitionsNamed_iff] at howner hdup
    obtain ⟨t, htable, hrow⟩ := exists_symbolRow hdup.1
    obtain ⟨t', htable', hrow'⟩ := exists_symbolRow howner.1
    have hname : d.table.symbolName d.row = s.owner.table.symbolName s.owner.row :=
      hdup.2.trans howner.2.symm
    rw [← htable, ← htable'] at hname ⊢
    exact (h.symbolName_eq_iff hrow hrow').1 hname
  · intro r hr
    rw [Option.isSome_iff_ne_none, ne_eq, hrecords.lookup_eq_none_iff]
    simp only [ne_eq, not_forall, not_not, exists_prop]
    constructor
    · rintro ⟨d, hd, hname⟩
      obtain ⟨t, htable, hrow⟩ := exists_symbolRow hd
      rw [Definition.name, ← htable] at hname
      exact ⟨t, d.row, hrow, (h.symbolName_eq_targetName_iff hrow hr).1 hname⟩
    · rintro ⟨t, row, hrow, hname⟩
      obtain ⟨i, hd⟩ := hrow.exists_definition
      exact ⟨_, hd, (h.symbolName_eq_targetName_iff hrow hr).2 hname⟩

/-- A table with a key of two columns, the second of which stands behind a plain one. -/
def featureTable (rows : List (List Field)) : Table :=
  ⟨⟨"Feature", [⟨"Id", .string, true⟩, ⟨"Title", .string, false⟩, ⟨"Level", .number, true⟩], true⟩,
    rows.map fun fields => ⟨fields, .unknown⟩⟩

/-- A row that is too short has the same key as one without a value, which stands in another
    section.  There may be a colon in a key. -/
def shortRow : Array Section :=
  #[⟨"main", .product, [featureTable [[.string "x"], [.string "x", .null, .number 7]]], .unknown⟩,
    ⟨"left", .fragment, [featureTable [[.string "x", .string "t", .null], [.string "x:y"]]],
      .unknown⟩]

theorem tellsKeys_shortRow :
    PlainlyNamed shortRow ∧ (survey shortRow false .unknown ∅).1.symbols.TellsKeys shortRow ∧
      ((survey shortRow false .unknown ∅).1.symbols.toList.map fun s =>
        (s.name, s.duplicates.size)) = [("Feature:x/", 1), ("Feature:x/7", 0), ("Feature:x:y/", 0)] := by
  have h : PlainlyNamed shortRow := ⟨by decide +kernel, by decide +kernel⟩
  exact ⟨h, tellsKeys_survey shortRow h false .unknown ∅, by decide +kernel⟩

end InstallerLinker
