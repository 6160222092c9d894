/-
  Installer linker — what a symbol table records.

  A table is built from definitions one by one.  What it holds of a name depends
  on the definitions of that name alone: `symbolOf` says it of a list of them,
  without a table.

  * `SymbolTable.Records allowIdentical t ds` says that the table `t` agrees with
    the definitions `ds`, and `Records.define` that a further definition keeps
    it so;
  * `repetition?` is the warning that a definition gives rise to after others,
    and `Records.issue_define` says that `define` returns it;
  * `Records.find?_eq` gives the owner and the duplicates of a name, and
    `Records.mem_contestedSymbols_iff` the symbols with duplicates.
-/
import Mathlib.Data.List.Nodup
import InstallerLinker.SymbolTable

namespace InstallerLinker

/-! ## Symbols without a table -/

/-- The definitions of a name, in order. -/
def definitionsNamed (name : String) (ds : List Definition) : List Definition :=
  ds.filter (·.name == name)

/-- The definition `d` repeats what its owner says, where that is allowed. -/
def Definition.repeats (allowIdentical : Bool) (owner d : Definition) : Bool :=
  allowIdentical && owner.row.isIdentical d.row

/-- The symbol that the definitions of one name make up: the first one owns it,
    and the later ones are its duplicates unless they repeat it. -/
def symbolOf (allowIdentical : Bool) : List Definition → Option Symbol
  | [] => none
  | owner :: later => some ⟨owner, (later.filter fun d => !owner.repeats allowIdentical d).toArray⟩

/-- The warning about a definition that comes after the definitions `earlier`. -/
def repetition? (allowIdentical : Bool) (earlier : List Definition) (d : Definition) :
    Option LinkIssue :=
  match earlier.find? (·.name == d.name) with
  | none => none
  | some owner =>
    if owner.repeats allowIdentical d then
      some (.identicalDuplicateRow d.name d.location owner.location)
    else none

theorem definitionsNamed_append_singleton (name : String) (ds : List Definition) (d : Definition) :
    definitionsNamed name (ds ++ [d]) =
      definitionsNamed name ds ++ if d.name = name then [d] else [] := by
  by_cases h : d.name = name <;> simp [definitionsNamed, h]

theorem mem_definitionsNamed_iff {name : String} {ds : List Definition} {d : Definition} :
    d ∈ definitionsNamed name ds ↔ d ∈ ds ∧ d.name = name := by
  simp [definitionsNamed]

theorem map_owner_symbolOf (allowIdentical : Bool) (ds : List Definition) :
    (symbolOf allowIdentical ds).map (·.owner) = ds.head? := by
  cases ds <;> rfl

namespace SymbolTable

theorem get?_eq_getElem?_toList (t : SymbolTable) (k : SymbolIndex) : t.get? k = t.toList[k]? := by
  simp [get?, toList]

theorem get?_addOwner (t : SymbolTable) (d : Definition) (k : SymbolIndex) :
    (t.addOwner d).get? k = if k = t.size then some ⟨d, #[]⟩ else t.get? k := by
  rw [get?_eq_getElem?_toList, get?_eq_getElem?_toList, toList_addOwner]
  by_cases hk : k = t.size
  · subst hk
    rw [if_pos rfl, ← length_toList, List.getElem?_concat_length]
  · rw [if_neg hk]
    rcases Nat.lt_or_gt_of_ne hk with hlt | hgt
    · exact List.getElem?_append_left (by rwa [length_toList])
    · rw [List.getElem?_eq_none_iff.2 (by rw [List.length_append, length_toList]; exact hgt),
        List.getElem?_eq_none_iff.2 (by rw [length_toList]; exact Nat.le_of_lt hgt)]

theorem get?_addDuplicate (t : SymbolTable) (i : SymbolIndex) (first : Bool) (d : Definition)
    (k : SymbolIndex) :
    (t.addDuplicate i first d).get? k =
      if i = k then (t.get? k).map (·.addDuplicate d) else t.get? k := by
  rw [get?_eq_getElem?_toList, get?_eq_getElem?_toList, toList_addDuplicate, List.getElem?_modify]
  split <;> simp

theorem find?_eq_some_iff {t : SymbolTable} {name : String} {s : Symbol} :
    t.find? name = some s ↔ ∃ k, t.lookup name = some k ∧ t.get? k = some s :=
  Option.bind_eq_some_iff

theorem exists_get?_of_mem_contestedSymbols {t : SymbolTable} {s : Symbol}
    (hs : s ∈ t.contestedSymbols) : ∃ k, t.get? k = some s := by
  obtain ⟨k, -, hk⟩ := List.mem_filterMap.1 hs
  exact ⟨k, hk⟩

/-! ## Tables that agree with a list of definitions -/

/-- The table holds the definitions `ds`. -/
structure Records (allowIdentical : Bool) (t : SymbolTable) (ds : List Definition) : Prop where
  lookup_iff : ∀ name k, t.lookup name = some k ↔ ∃ s, t.get? k = some s ∧ s.name = name
  find?_eq : ∀ name, t.find? name = symbolOf allowIdentical (definitionsNamed name ds)
  mem_contested_iff : ∀ k, k ∈ t.contested.toList ↔ ∃ s, t.get? k = some s ∧ s.hasDuplicates = true
  nodup_contested : t.contested.toList.Nodup

variable {allowIdentical : Bool} {t : SymbolTable} {ds : List Definition}

theorem get?_empty (k : SymbolIndex) : (∅ : SymbolTable).get? k = none := by
  rw [get?_eq_getElem?_toList, toList_empty, List.getElem?_nil]

theorem records_empty (allowIdentical : Bool) : Records allowIdentical ∅ [] where
  lookup_iff name k := by
    rw [lookup_empty, get?_empty]
    exact ⟨nofun, nofun⟩
  find?_eq name := by
    rw [find?, lookup_empty]
    rfl
  mem_contested_iff k := by
    rw [get?_empty]
    exact ⟨nofun, nofun⟩
  nodup_contested := List.nodup_nil

namespace Records

theorem lookup_of_get? (h : Records allowIdentical t ds) {k : SymbolIndex} {s : Symbol}
    (hk : t.get? k = some s) : t.lookup s.name = some k :=
  (h.lookup_iff _ _).2 ⟨s, hk, rfl⟩

theorem find?_of_get? (h : Records allowIdentical t ds) {k : SymbolIndex} {s : Symbol}
    (hk : t.get? k = some s) : t.find? s.name = some s :=
  find?_eq_some_iff.2 ⟨k, h.lookup_of_get? hk, hk⟩

theorem get?_lt_size {k : SymbolIndex} {s : Symbol} (hk : t.get? k = some s) : k < t.size := by
  rw [get?_eq_getElem?_toList] at hk
  exact length_toList t ▸ (List.getElem?_eq_some_iff.1 hk).1

/-- The owner of a name is its first definition. -/
theorem map_owner_find? (h : Records allowIdentical t ds) (name : String) :
    (t.find? name).map (·.owner) = ds.find? (·.name == name) := by
  rw [h.find?_eq, map_owner_symbolOf, definitionsNamed, List.head?_filter]

theorem find?_definition_of_lookup (h : Records allowIdentical t ds) {name : String}
    (hd : t.lookup name = none) : ds.find? (·.name == name) = none := by
  rw [← h.map_owner_find?, find?, hd]
  rfl

theorem find?_definition_of_get? (h : Records allowIdentical t ds) {k : SymbolIndex} {s : Symbol}
    (hk : t.get? k = some s) : ds.find? (·.name == s.name) = some s.owner := by
  rw [← h.map_owner_find?, h.find?_of_get? hk]
  rfl

theorem lookup_eq_none_iff (h : Records allowIdentical t ds) {name : String} :
    t.lookup name = none ↔ ∀ d ∈ ds, d.name ≠ name := by
  have howner := h.map_owner_find? name
  constructor
  · intro hk
    rw [find?, hk] at howner
    simpa using List.find?_eq_none.1 howner.symm
  · intro hall
    cases hk : t.lookup name with
    | none => rfl
    | some k =>
      obtain ⟨s, hs, rfl⟩ := (h.lookup_iff _ _).1 hk
      rw [h.find?_of_get? hs] at howner
      have hmem := List.mem_of_find?_eq_some howner.symm
      exact absurd rfl (hall _ hmem)

theorem addOwner (h : Records allowIdentical t ds) {d : Definition} (hd : t.lookup d.name = none) :
    Records allowIdentical (t.addOwner d) (ds ++ [d]) where
  lookup_iff name k := by
    rw [lookup_addOwner, get?_addOwner]
    constructor
    · intro hk
      split at hk
      · next hname => cases hk; exact ⟨_, if_pos rfl, hname⟩
      · obtain ⟨s, hs, hname⟩ := (h.lookup_iff _ _).1 hk
        exact ⟨s, by rw [if_neg (Nat.ne_of_lt (get?_lt_size hs)), hs], hname⟩
    · rintro ⟨s, hs, hname⟩
      split at hs
      · next hk => cases hs; rw [if_pos (show d.name = name from hname), hk]
      · have hk := (h.lookup_iff name k).2 ⟨s, hs, hname⟩
        rw [if_neg, hk]
        rintro rfl
        exact absurd (hd.symm.trans hk) (by simp)
  find?_eq name := by
    rw [find?, lookup_addOwner, definitionsNamed_append_singleton]
    by_cases hname : d.name = name
    · have hnil : definitionsNamed name ds = [] := by
        refine List.filter_eq_nil_iff.2 fun d' hd' => ?_
        simpa [hname] using h.lookup_eq_none_iff.1 hd d' hd'
      rw [if_pos hname, if_pos hname, hnil, Option.bind_some, get?_addOwner, if_pos rfl]
      rfl
    · rw [if_neg hname, if_neg hname, List.append_nil, ← h.find?_eq, find?]
      cases hk : t.lookup name with
      | none => rfl
      | some k =>
        obtain ⟨s, hs, -⟩ := (h.lookup_iff _ _).1 hk
        rw [Option.bind_some, Option.bind_some, get?_addOwner, if_neg (Nat.ne_of_lt (get?_lt_size hs))]
  mem_contested_iff k := by
    rw [contested_addOwner, h.mem_contested_iff, get?_addOwner]
    constructor
    · rintro ⟨s, hs, hdup⟩
      exact ⟨s, by rw [if_neg (Nat.ne_of_lt (get?_lt_size hs)), hs], hdup⟩
    · rintro ⟨s, hs, hdup⟩
      split at hs
      · cases hs; exact absurd hdup (by simp [Symbol.hasDuplicates])
      · exact ⟨s, hs, hdup⟩
  nodup_contested := h.nodup_contested

/-- A name that is in the table was defined before. -/
theorem definitionsNamed_eq_cons (h : Records allowIdentical t ds) {k : SymbolIndex} {s : Symbol}
    (hk : t.get? k = some s) : ∃ later, definitionsNamed s.name ds = s.owner :: later ∧
      s.duplicates.toList = later.filter fun d => !s.owner.repeats allowIdentical d := by
  have hs := h.find?_of_get? hk
  rw [h.find?_eq] at hs
  cases hds : definitionsNamed s.name ds with
  | nil => rw [hds] at hs; cases hs
  | cons owner later =>
    rw [hds, symbolOf, Option.some.injEq] at hs
    rw [← hs]
    exact ⟨later, rfl, rfl⟩

theorem name_of_mem_duplicates (h : Records allowIdentical t ds) {k : SymbolIndex} {s : Symbol}
    (hk : t.get? k = some s) {d : Definition} (hd : d ∈ s.duplicates.toList) : d.name = s.name := by
  obtain ⟨later, hlater, hduplicates⟩ := h.definitionsNamed_eq_cons hk
  rw [hduplicates] at hd
  have hmem : d ∈ definitionsNamed s.name ds :=
    hlater ▸ List.mem_cons_of_mem _ (List.mem_of_mem_filter hd)
  exact (mem_definitionsNamed_iff.1 hmem).2

theorem repeated (h : Records allowIdentical t ds) {d : Definition} {k : SymbolIndex} {s : Symbol}
    (hk : t.get? k = some s) (hname : s.name = d.name)
    (hrep : s.owner.repeats allowIdentical d = true) : Records allowIdentical t (ds ++ [d]) where
  lookup_iff := h.lookup_iff
  find?_eq name := by
    rw [h.find?_eq, definitionsNamed_append_singleton]
    split
    · next hd =>
      obtain ⟨later, hlater, -⟩ := h.definitionsNamed_eq_cons hk
      rw [hname, hd] at hlater
      rw [hlater, List.cons_append, symbolOf, symbolOf, List.filter_append]
      simp [hrep]
    · rw [List.append_nil]
  mem_contested_iff := h.mem_contested_iff
  nodup_contested := h.nodup_contested

/-! A further definition of the symbol at position `k`. -/

section
variable {d : Definition} {k : SymbolIndex} {s : Symbol}

theorem find?_addDuplicate (h : Records allowIdentical t ds) (hk : t.get? k = some s)
    (hname : s.name = d.name) (hrep : s.owner.repeats allowIdentical d = false) (first : Bool)
    (name : String) : (t.addDuplicate k first d).find? name =
      symbolOf allowIdentical (definitionsNamed name (ds ++ [d])) := by
  rw [find?, lookup_addDuplicate, definitionsNamed_append_singleton]
  by_cases hd : d.name = name
  · obtain ⟨later, hlater, hdup⟩ := h.definitionsNamed_eq_cons hk
    have hlook := h.lookup_of_get? hk
    have hpush : s.duplicates.push d = (s.duplicates.toList ++ [d]).toArray :=
      Array.ext' (by simp)
    rw [hname, hd] at hlater hlook
    rw [hlook, if_pos hd, hlater, Option.bind_some, get?_addDuplicate, if_pos rfl, hk,
      List.cons_append, symbolOf, List.filter_append, ← hdup, Option.map_some, Symbol.addDuplicate,
      hpush]
    simp [hrep]
  · rw [if_neg hd, List.append_nil, ← h.find?_eq, find?]
    cases hj : t.lookup name with
    | none => rfl
    | some j =>
      rw [Option.bind_some, Option.bind_some, get?_addDuplicate, if_neg]
      rintro rfl
      obtain ⟨s', hs', hn⟩ := (h.lookup_iff _ _).1 hj
      rw [hk] at hs'
      cases hs'
      exact hd (hname.symm.trans hn)

theorem mem_contested_iff_hasDuplicates (h : Records allowIdentical t ds)
    (hk : t.get? k = some s) : k ∈ t.contested.toList ↔ s.hasDuplicates = true := by
  rw [h.mem_contested_iff, hk]
  constructor
  · rintro ⟨s', hs', hdup⟩
    cases hs'
    exact hdup
  · intro hdup
    exact ⟨s, rfl, hdup⟩

theorem mem_contested_addDuplicate_iff (h : Records allowIdentical t ds) (hk : t.get? k = some s)
    (j : SymbolIndex) : j ∈ (t.addDuplicate k (!s.hasDuplicates) d).contested.toList ↔
      j ∈ t.contested.toList ∨ j = k := by
  have hkc := h.mem_contested_iff_hasDuplicates hk
  rw [contested_addDuplicate]
  cases hdup : s.hasDuplicates with
  | false => simp
  | true =>
    constructor
    · exact Or.inl
    · rintro (hj | rfl)
      · exact hj
      · exact hkc.2 hdup

theorem addDuplicate (h : Records allowIdentical t ds) (hk : t.get? k = some s)
    (hname : s.name = d.name) (hrep : s.owner.repeats allowIdentical d = false) :
    Records allowIdentical (t.addDuplicate k (!s.hasDuplicates) d) (ds ++ [d]) where
  lookup_iff name j := by
    rw [lookup_addDuplicate, h.lookup_iff, get?_addDuplicate]
    split
    · next hkj =>
      subst hkj
      rw [hk]
      constructor
      · rintro ⟨s', hs', hn⟩
        cases hs'
        exact ⟨_, rfl, hn⟩
      · rintro ⟨s', hs', hn⟩
        cases hs'
        exact ⟨_, rfl, hn⟩
    · rfl
  find?_eq name := h.find?_addDuplicate hk hname hrep _ name
  mem_contested_iff j := by
    have hnew : (s.addDuplicate d).hasDuplicates = true := by
      simp [Symbol.hasDuplicates, Symbol.addDuplicate]
    rw [h.mem_contested_addDuplicate_iff hk, h.mem_contested_iff, get?_addDuplicate]
    by_cases hkj : k = j
    · subst hkj
      rw [if_pos rfl, hk]
      exact ⟨fun _ => ⟨_, rfl, hnew⟩, fun _ => Or.inr rfl⟩
    · rw [if_neg hkj]
      exact or_iff_left (Ne.symm hkj)
  nodup_contested := by
    have hkc := h.mem_contested_iff_hasDuplicates hk
    rw [contested_addDuplicate]
    cases hdup : s.hasDuplicates with
    | true => exact h.nodup_contested
    | false =>
      rw [Bool.not_false, if_pos rfl, Array.toList_push, ← List.concat_eq_append]
      refine h.nodup_contested.concat fun hmem => ?_
      exact absurd (hdup.symm.trans (hkc.1 hmem)) Bool.noConfusion

end

/-- What becomes of a definition: it owns a new name, it repeats the owner of its
    name, or it is a duplicate. -/
theorem define_cases (h : Records allowIdentical t ds) (d : Definition) :
    (t.lookup d.name = none ∧ t.define allowIdentical d = (t.addOwner d, none)) ∨
      ∃ k s, t.get? k = some s ∧ s.name = d.name ∧
        ((s.owner.repeats allowIdentical d = true ∧ t.define allowIdentical d =
            (t, some (.identicalDuplicateRow d.name d.location s.owner.location))) ∨
          (s.owner.repeats allowIdentical d = false ∧ t.define allowIdentical d =
            (t.addDuplicate k (!s.hasDuplicates) d, none))) := by
  cases hk : t.lookup d.name with
  | none => exact Or.inl ⟨rfl, by simp [SymbolTable.define, hk]⟩
  | some k =>
    obtain ⟨s, hs, hname⟩ := (h.lookup_iff _ _).1 hk
    refine Or.inr ⟨k, s, hs, hname, ?_⟩
    cases hrep : s.owner.repeats allowIdentical d with
    | true =>
      have hrep' := hrep
      simp only [Definition.repeats] at hrep'
      exact Or.inl ⟨rfl, by simp [SymbolTable.define, hk, hs, hrep']⟩
    | false =>
      have hrep' := hrep
      simp only [Definition.repeats] at hrep'
      exact Or.inr ⟨rfl, by simp [SymbolTable.define, hk, hs, hrep']⟩

theorem define (h : Records allowIdentical t ds) (d : Definition) :
    Records allowIdentical (t.define allowIdentical d).1 (ds ++ [d]) := by
  rcases h.define_cases d with ⟨hd, he⟩ | ⟨k, s, hk, hname, ⟨hrep, he⟩ | ⟨hrep, he⟩⟩
  · rw [he]
    exact h.addOwner hd
  · rw [he]
    exact h.repeated hk hname hrep
  · rw [he]
    exact h.addDuplicate hk hname hrep

theorem issue_define (h : Records allowIdentical t ds) (d : Definition) :
    (t.define allowIdentical d).2 = repetition? allowIdentical ds d := by
  rcases h.define_cases d with ⟨hd, he⟩ | ⟨k, s, hk, hname, hcases⟩
  · rw [he, repetition?, h.find?_definition_of_lookup hd]
  · rw [repetition?, ← hname, h.find?_definition_of_get? hk]
    rcases hcases with ⟨hrep, he⟩ | ⟨hrep, he⟩ <;> simp [he, hrep, hname]

/-- The contested symbols are those with duplicates. -/
theorem mem_contestedSymbols_iff (h : Records allowIdentical t ds) {s : Symbol} :
    s ∈ t.contestedSymbols ↔ t.find? s.name = some s ∧ s.hasDuplicates = true := by
  simp only [contestedSymbols, List.mem_filterMap]
  constructor
  · rintro ⟨k, hk, hs⟩
    obtain ⟨s', hs', hdup⟩ := (h.mem_contested_iff k).1 hk
    rw [hs] at hs'
    cases hs'
    exact ⟨h.find?_of_get? hs, hdup⟩
  · rintro ⟨hs, hdup⟩
    obtain ⟨k, -, hk⟩ := find?_eq_some_iff.1 hs
    exact ⟨k, (h.mem_contested_iff k).2 ⟨s, hk, hdup⟩, hk⟩

end Records

end SymbolTable

end InstallerLinker
