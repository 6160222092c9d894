/-
  Installer linker — links that tolerate more.

  Whether rows may be repeated and which kind of output is expected bears on what a link
  reports and on nothing else.  Where a repeated row is tolerated it gives rise to a warning
  and is not kept as a duplicate; the owners stay the same, and a search reads no more of a
  symbol than its owner.

  * `SymbolTable.Tolerant` compares a table with the one that tolerates nothing, and
    `Tolerant.define` says that a further definition keeps the two in step;
  * `LinkSettings.tuned` changes the two settings in question, `Linkage.Same` says that two
    results agree in all but the duplicates, and `link_tuned_rel` that links with such
    settings do;
  * `Records.filter_isCollisionOf_collisions` gives the messages about the collisions of one
    name, and `collisionsOf_tuned_sublist` compares them;
  * `ToleratesRepeats` says what becomes of the duplicates and the messages where rows may be
    repeated, and `link_tuned` puts everything together.
-/
import Mathlib.Data.Option.Basic
import InstallerLinker.Proofs.Growth
import InstallerLinker.Proofs.Link.Conflicts
import InstallerLinker.Proofs.Link.Relocation
import InstallerLinker.Proofs.Reach.Dependence

namespace InstallerLinker

/-! ## Tables -/

/-- The symbol without the duplicates that repeat its owner. -/
def Symbol.withoutRepeats (allowIdentical : Bool) (s : Symbol) : Symbol :=
  { s with duplicates := s.duplicates.filter fun d => !s.owner.repeats allowIdentical d }

theorem Symbol.withoutRepeats_false (s : Symbol) : s.withoutRepeats false = s := by
  have hall : (s.duplicates.filter fun d => !s.owner.repeats false d) = s.duplicates :=
    Array.filter_eq_self.2 fun _ _ => rfl
  rw [withoutRepeats, hall]

section
variable {allowIdentical : Bool} {s : Symbol} {d : Definition}

theorem Symbol.withoutRepeats_addDuplicate_of_repeats
    (h : s.owner.repeats allowIdentical d = true) :
    (s.addDuplicate d).withoutRepeats allowIdentical = s.withoutRepeats allowIdentical := by
  simp [withoutRepeats, addDuplicate, h]

theorem Symbol.withoutRepeats_addDuplicate (h : s.owner.repeats allowIdentical d = false) :
    (s.addDuplicate d).withoutRepeats allowIdentical =
      (s.withoutRepeats allowIdentical).addDuplicate d := by
  simp [withoutRepeats, addDuplicate, h]

end

namespace SymbolTable

@[simp] theorem size_addOwner (t : SymbolTable) (d : Definition) :
    (t.addOwner d).size = t.size + 1 := by
  rw [← length_toList, toList_addOwner, List.length_append, length_toList, List.length_singleton]

@[simp] theorem size_addDuplicate (t : SymbolTable) (i : SymbolIndex) (first : Bool)
    (d : Definition) : (t.addDuplicate i first d).size = t.size := by
  rw [← length_toList, toList_addDuplicate, List.length_modify, length_toList]

/-- The table `t` holds what `strict` does, but for duplicates that repeat their owner. -/
structure Tolerant (allowIdentical : Bool) (strict t : SymbolTable) : Prop where
  size : t.size = strict.size
  lookup : ∀ name, t.lookup name = strict.lookup name
  get?_eq : ∀ k, t.get? k = (strict.get? k).map (Symbol.withoutRepeats allowIdentical)

namespace Tolerant
variable {allowIdentical : Bool} {strict t : SymbolTable}

theorem empty (allowIdentical : Bool) : Tolerant allowIdentical ∅ ∅ where
  size := rfl
  lookup _ := rfl
  get?_eq k := by
    rw [get?_empty, Option.map_none]

theorem addOwner (h : Tolerant allowIdentical strict t) (d : Definition) :
    Tolerant allowIdentical (strict.addOwner d) (t.addOwner d) where
  size := by
    rw [size_addOwner, size_addOwner, h.size]
  lookup name := by
    rw [lookup_addOwner, lookup_addOwner, h.size, h.lookup]
  get?_eq k := by
    rw [get?_addOwner, get?_addOwner, h.size]
    split
    · simp [Symbol.withoutRepeats]
    · exact h.get?_eq k

section
variable (h : Tolerant allowIdentical strict t) {i : SymbolIndex} {s : Symbol} {d : Definition}
  (hs : strict.get? i = some s)
include h hs

/-- A repeated row is a duplicate only where nothing is tolerated. -/
theorem addRepeat (hrep : s.owner.repeats allowIdentical d = true) (first : Bool) :
    Tolerant allowIdentical (strict.addDuplicate i first d) t where
  size := by
    rw [size_addDuplicate, h.size]
  lookup := h.lookup
  get?_eq k := by
    rw [get?_addDuplicate, h.get?_eq]
    split
    · next hik =>
      subst hik
      rw [hs, Option.map_some, Option.map_some, Option.map_some,
        Symbol.withoutRepeats_addDuplicate_of_repeats hrep]
    · rfl

theorem addDuplicate (hrep : s.owner.repeats allowIdentical d = false) (first first' : Bool) :
    Tolerant allowIdentical (strict.addDuplicate i first d) (t.addDuplicate i first' d) where
  size := by
    rw [size_addDuplicate, size_addDuplicate, h.size]
  lookup := h.lookup
  get?_eq k := by
    rw [get?_addDuplicate, get?_addDuplicate, h.get?_eq]
    split
    · next hik =>
      subst hik
      rw [hs, Option.map_some, Option.map_some, Option.map_some, Option.map_some,
        Symbol.withoutRepeats_addDuplicate hrep]
    · rfl

end

/-- A further definition owns its name in both tables or in none. -/
theorem define (h : Tolerant allowIdentical strict t) (d : Definition) :
    Tolerant allowIdentical (strict.define false d).1 (t.define allowIdentical d).1 := by
  unfold SymbolTable.define
  rw [h.lookup]
  cases hi : strict.lookup d.name with
  | none => exact h.addOwner d
  | some i =>
    have hget := h.get?_eq i
    cases hs : strict.get? i with
    | none =>
      rw [hs, Option.map_none] at hget
      simpa only [hs, hget] using h
    | some s =>
      rw [hs, Option.map_some] at hget
      cases hrep : s.owner.repeats allowIdentical d with
      | true =>
        have hrep' : (allowIdentical && s.owner.row.isIdentical d.row) = true := hrep
        simpa [hs, hget, Symbol.withoutRepeats, hrep'] using h.addRepeat hs hrep _
      | false =>
        have hrep' : (allowIdentical && s.owner.row.isIdentical d.row) = false := hrep
        simpa [hs, hget, Symbol.withoutRepeats, hrep'] using h.addDuplicate hs hrep _ _

theorem defineAll (h : Tolerant allowIdentical strict t) (ds : List Definition) :
    Tolerant allowIdentical (strict.defineAll false ds) (t.defineAll allowIdentical ds) := by
  induction ds generalizing strict t with
  | nil => exact h
  | cons d ds ih => exact ih (h.define d)

/-- Two tables that tolerate more than the same one have the same owners. -/
theorem map_owner_eq {allowIdentical' : Bool} {t' : SymbolTable}
    (h : Tolerant allowIdentical strict t) (h' : Tolerant allowIdentical' strict t')
    (k : SymbolIndex) : (t.get? k).map (·.owner) = (t'.get? k).map (·.owner) := by
  rw [h.get?_eq, h'.get?_eq, Option.map_map, Option.map_map]
  rfl

theorem find?_eq (h : Tolerant allowIdentical strict t) (name : String) :
    t.find? name = (strict.find? name).map (Symbol.withoutRepeats allowIdentical) := by
  rw [SymbolTable.find?, SymbolTable.find?, h.lookup]
  cases strict.lookup name with
  | none => rfl
  | some k => exact h.get?_eq k

end Tolerant

theorem tolerant_defineAll (allowIdentical : Bool) (ds : List Definition) :
    Tolerant allowIdentical ((∅ : SymbolTable).defineAll false ds)
      ((∅ : SymbolTable).defineAll allowIdentical ds) :=
  (Tolerant.empty allowIdentical).defineAll ds

end SymbolTable

theorem tolerant_link {settings : LinkSettings} {sections : Array Section} {log : Log LinkIssue}
    {l : Linkage} (h : (link settings sections log).1 = some l) :
    SymbolTable.Tolerant settings.allowIdenticalRows
      ((∅ : SymbolTable).defineAll false (definitionsOf sections.toList)) l.symbols := by
  rw [symbols_link h]
  exact SymbolTable.tolerant_defineAll _ _

/-! ## The links agree -/

/-- The settings with another choice of what is tolerated and expected. -/
def LinkSettings.tuned (settings : LinkSettings) (allowIdenticalRows : Bool)
    (expectedKind : SectionKind) : LinkSettings :=
  { settings with allowIdenticalRows := allowIdenticalRows, expectedKind := expectedKind }

/-- The same is linked, whatever is known of duplicates. -/
structure Linkage.Same (l l' : Linkage) : Prop where
  sections : l'.sections = l.sections
  entry : l'.entry = l.entry
  owners : l'.symbols.toList.map (·.owner) = l.symbols.toList.map (·.owner)
  lookup : ∀ name, l'.symbols.lookup name = l.symbols.lookup name
  /-- The sections visited, the symbols referred to and the dangling references are the
      same, in the same order. -/
  reach : l'.reach = l.reach

theorem link_tuned_rel (settings : LinkSettings) (sections : Array Section)
    (allowIdentical allowIdentical' : Bool) (expected expected' : SectionKind)
    (log log' : Log LinkIssue) :
    Option.Rel Linkage.Same (link (settings.tuned allowIdentical expected) sections log).1
      (link (settings.tuned allowIdentical' expected') sections log').1 := by
  cases hentry : sections.toList.findIdx? (·.kind.isEntry) with
  | none =>
    rw [(link_of_no_entry _ hentry log).1, (link_of_no_entry _ hentry log').1]
    exact .none
  | some entry =>
    obtain ⟨symbols, reach, -, hreach, hresult, -⟩ :=
      link_of_entry (settings.tuned allowIdentical expected) hentry log
    obtain ⟨symbols', reach', -, hreach', hresult', -⟩ :=
      link_of_entry (settings.tuned allowIdentical' expected') hentry log'
    have h := tolerant_link hresult
    have h' := tolerant_link hresult'
    have halike : ((settings.tuned allowIdentical' expected').scope sections symbols' entry).Alike
        ((settings.tuned allowIdentical expected).scope sections symbols entry) :=
      ⟨rfl, rfl, fun _ => rfl, h'.size.trans h.size.symm,
        fun name => (h'.lookup name).trans (h.lookup name).symm, h'.map_owner_eq h⟩
    rw [hresult, hresult']
    refine .some ⟨rfl, rfl, ?_, halike.lookup, ?_⟩
    · refine List.ext_getElem? fun k => ?_
      rw [List.getElem?_map, List.getElem?_map, ← SymbolTable.get?_eq_getElem?_toList,
        ← SymbolTable.get?_eq_getElem?_toList]
      exact h'.map_owner_eq h k
    · rw [hreach, hreach']
      exact halike.reachFrom_eq entry

/-! ## The messages about one name -/

/-- The message is about the collision of the given name or about one of its places. -/
def LinkIssue.isCollisionOf (name : String) : LinkIssue → Bool
  | .conflictingDuplicateSymbol n _ | .duplicateSymbolLocation n _ => n == name
  | _ => false

/-- The message is about a place that defines the given name again. -/
def LinkIssue.isRedefinitionOf (name : String) : LinkIssue → Bool
  | .duplicateSymbolLocation n _ => n == name
  | _ => false

theorem LinkIssue.isCollisionOf_of_isRedefinitionOf {name : String} {x : LinkIssue}
    (h : x.isRedefinitionOf name = true) : x.isCollisionOf name = true := by
  cases x <;> first | exact h | cases h

section
variable (name : String) (reach : Reach) (roles : TableRoles)

/-- Fewer duplicates give rise to fewer messages. -/
theorem collisionIssues_withoutRepeats_sublist (allowIdentical : Bool) (s : Symbol) :
    ((s.withoutRepeats allowIdentical).collisionIssues reach roles).Sublist
      (s.collisionIssues reach roles) := by
  have hreached : ((s.withoutRepeats allowIdentical).reachedDuplicates reach).Sublist
      (s.reachedDuplicates reach) := by
    rw [Symbol.reachedDuplicates, Symbol.reachedDuplicates, Symbol.withoutRepeats,
      Array.toList_filter]
    exact List.filter_sublist.filter _
  unfold Symbol.collisionIssues
  have hexcused : (s.withoutRepeats allowIdentical).isExcused reach roles =
      s.isExcused reach roles := rfl
  rw [hexcused]
  split
  · exact List.Sublist.refl _
  · cases hd : (s.withoutRepeats allowIdentical).reachedDuplicates reach with
    | nil => exact List.nil_sublist _
    | cons d ds =>
      rw [hd] at hreached
      cases hd' : s.reachedDuplicates reach with
      | nil =>
        rw [hd'] at hreached
        cases hreached
      | cons d' ds' =>
        rw [hd'] at hreached
        exact (hreached.map _).cons_cons _

theorem filter_isCollisionOf_surveyIssues (allowIdentical : Bool) (expected : SectionKind)
    (sections : List Section) :
    (surveyIssues allowIdentical expected sections).filter (·.isCollisionOf name) = [] := by
  refine List.filter_eq_nil_iff.2 fun x hx => ?_
  obtain ⟨_, _, _, rfl⟩ | ⟨_, _, _, _, rfl⟩ | ⟨_, _, _, rfl⟩ := of_mem_surveyIssues hx <;>
    exact Bool.false_ne_true

/-- The messages about a symbol are about its name. -/
theorem filter_isCollisionOf_collisionIssues {s : Symbol}
    (h : ∀ d ∈ s.duplicates.toList, d.name = s.name) :
    (s.collisionIssues reach roles).filter (·.isCollisionOf name) =
      if s.name == name then s.collisionIssues reach roles else [] := by
  have hname : ∀ x ∈ s.collisionIssues reach roles, x.isCollisionOf name = (s.name == name) := by
    intro x hx
    obtain rfl | ⟨d, hd, rfl⟩ := mem_collisionIssues hx
    · rfl
    · rw [← h d (mem_reachedDuplicates_iff.1 hd).1]
      rfl
  rw [List.filter_congr hname]
  cases s.name == name <;> simp

end

namespace SymbolTable.Records
variable {allowIdentical : Bool} {ds : List Definition} {t : SymbolTable}

/-- At most one symbol of a name is contested: the one that is found. -/
theorem filter_name_contestedSymbols (h : t.Records allowIdentical ds) (name : String) :
    t.contestedSymbols.filter (·.name == name) =
      (t.find? name).toList.filter (·.hasDuplicates) := by
  have hperm : (t.contestedSymbols.filter (·.name == name)).Perm
      ((t.find? name).toList.filter (·.hasDuplicates)) := by
    refine (List.perm_ext_iff_of_nodup (h.nodup_contestedSymbols.filter _) ?_).2 fun s => ?_
    · refine List.Nodup.filter _ ?_
      cases t.find? name with
      | none => exact List.nodup_nil
      | some s => exact List.nodup_singleton s
    · rw [List.mem_filter, List.mem_filter, h.mem_contestedSymbols_iff, Option.mem_toList,
        beq_iff_eq]
      constructor
      · rintro ⟨⟨hs, hdup⟩, rfl⟩
        exact ⟨hs, hdup⟩
      · rintro ⟨hs, hdup⟩
        obtain ⟨k, hk, hget⟩ := find?_eq_some_iff.1 hs
        obtain ⟨s', hs', hname⟩ := (h.lookup_iff name k).1 hk
        rw [hget] at hs'
        cases hs'
        exact ⟨⟨hname ▸ hs, hdup⟩, hname⟩
  cases hfind : t.find? name with
  | none =>
    rw [hfind] at hperm
    exact hperm.eq_nil
  | some s =>
    rw [hfind] at hperm
    cases hdup : s.hasDuplicates with
    | false =>
      have hnil : (some s).toList.filter (·.hasDuplicates) = [] := by simp [hdup]
      rw [hnil] at hperm ⊢
      exact hperm.eq_nil
    | true =>
      have hone : (some s).toList.filter (·.hasDuplicates) = [s] := by simp [hdup]
      rw [hone] at hperm ⊢
      exact List.perm_singleton.1 hperm

theorem filter_isCollisionOf (h : t.Records allowIdentical ds) {k : SymbolIndex} {s : Symbol}
    (hk : t.get? k = some s) (name : String) (reach : Reach) (roles : TableRoles) :
    (s.collisionIssues reach roles).filter (·.isCollisionOf name) =
      if s.name == name then s.collisionIssues reach roles else [] :=
  filter_isCollisionOf_collisionIssues name reach roles fun _ => h.name_of_mem_duplicates hk

/-- The messages about the collisions of a name are those about its symbol. -/
theorem filter_isCollisionOf_collisions (h : t.Records allowIdentical ds) (name : String)
    (reach : Reach) (roles : TableRoles) :
    (t.contestedSymbols.flatMap (Symbol.collisionIssues reach roles)).filter
        (·.isCollisionOf name) =
      ((t.find? name).map (Symbol.collisionIssues reach roles)).getD [] := by
  have hother : ∀ s ∈ t.contestedSymbols, (s.name == name) = false →
      (s.collisionIssues reach roles).filter (·.isCollisionOf name) = [] := by
    intro s hs hname
    obtain ⟨k, hk⟩ := exists_get?_of_mem_contestedSymbols hs
    rw [h.filter_isCollisionOf hk, hname, if_neg Bool.false_ne_true]
  rw [List.filter_flatMap, ← flatMap_filter_of_eq_nil hother, h.filter_name_contestedSymbols]
  cases hfind : t.find? name with
  | none => rfl
  | some s =>
    obtain ⟨k, hk, hget⟩ := find?_eq_some_iff.1 hfind
    obtain ⟨s', hs', hname⟩ := (h.lookup_iff name k).1 hk
    obtain rfl : s = s' := Option.some.inj (hget.symm.trans hs')
    cases hdup : s.hasDuplicates with
    | true => simp [hdup, h.filter_isCollisionOf hget, hname]
    | false =>
      have hnone : s.reachedDuplicates reach = [] := by
        rw [Symbol.hasDuplicates, Bool.not_eq_false', Array.isEmpty_iff] at hdup
        rw [Symbol.reachedDuplicates, hdup]
        rfl
      simp [hdup, collisionIssues_eq_nil_iff.2 (Or.inr hnone)]

end SymbolTable.Records

/-! ## The messages of a link -/

theorem filter_isRepetitionOf_surveyIssues (allowIdentical : Bool) (expected : SectionKind)
    (sections : List Section) (name : String) :
    (surveyIssues allowIdentical expected sections).filter (·.isRepetitionOf name) =
      repetitions allowIdentical (definitionsNamed name (definitionsOf sections)) := by
  rw [← filter_isRepetitionOf_repetitions,
    ← filter_isRepetition_surveyIssues allowIdentical expected, List.filter_filter]
  refine List.filter_congr fun x _ => ?_
  cases x <;> simp [LinkIssue.isRepetitionOf, LinkIssue.isRepetition]

/-- Of the definitions of one name, each that repeats the first is warned of. -/
theorem repetitions_cons (allowIdentical : Bool) {owner : Definition} {later : List Definition}
    (h : ∀ d ∈ later, d.name = owner.name) :
    repetitions allowIdentical (owner :: later) =
      (later.filter (owner.repeats allowIdentical)).map fun d =>
        .identicalDuplicateRow owner.name d.location owner.location := by
  induction later using List.reverseRecOn with
  | nil => rfl
  | append_singleton later d ih =>
    rw [List.forall_mem_append] at h
    have hname : d.name = owner.name := h.2 d (List.mem_singleton_self d)
    have hfind : (owner :: later).find? (·.name == d.name) = some owner :=
      List.find?_cons_of_pos (by simp [hname])
    rw [← List.cons_append, repetitions_append_singleton, ih h.1, repetition?, hfind,
      List.filter_append, List.map_append, hname]
    cases hrep : owner.repeats allowIdentical d <;> simp [hrep]

/-- The messages about the collisions of a name. -/
def Linkage.collisionsOf (l : Linkage) (roles : TableRoles) (name : String) : List LinkIssue :=
  ((l.symbols.find? name).map (Symbol.collisionIssues l.reach roles)).getD []

/-- What a link reports after the survey. -/
theorem exists_toList_link (settings : LinkSettings) (sections : Array Section)
    (log : Log LinkIssue) :
    ∃ later, (link settings sections log).2.toList = log.toList ++
        (surveyIssues settings.allowIdenticalRows settings.expectedKind sections.toList ++ later) ∧
      ∀ name, later.filter (·.isRepetitionOf name) = [] ∧
        later.filter (·.isCollisionOf name) =
          (link settings sections log).1.elim [] fun l => l.collisionsOf settings.roles name := by
  cases hlink : (link settings sections log).1 with
  | none =>
    cases hentry : sections.toList.findIdx? (·.kind.isEntry) with
    | none =>
      refine ⟨_, (link_of_no_entry settings hentry log).2.trans (List.append_assoc ..), ?_⟩
      exact fun name => ⟨rfl, rfl⟩
    | some entry =>
      obtain ⟨symbols, reach, -, -, hresult, -⟩ := link_of_entry settings hentry log
      rw [hresult] at hlink
      cases hlink
  | some l =>
    obtain ⟨-, -, hsymbols, -, hlog⟩ := of_link_eq_some hlink
    refine ⟨_, hlog, fun name => ⟨?_, ?_⟩⟩
    · refine List.filter_eq_nil_iff.2 fun x hx => ?_
      rcases List.mem_append.1 hx with hx | hx
      · obtain ⟨d, -, rfl⟩ := List.mem_map.1 hx
        exact Bool.false_ne_true
      · obtain ⟨s, -, hx⟩ := List.mem_flatMap.1 hx
        obtain rfl | ⟨d, -, rfl⟩ := mem_collisionIssues hx <;> exact Bool.false_ne_true
    · have hdangling : (l.reach.dangling.toList.map DanglingReference.issue).filter
          (·.isCollisionOf name) = [] := by
        refine List.filter_eq_nil_iff.2 fun x hx => ?_
        obtain ⟨d, -, rfl⟩ := List.mem_map.1 hx
        exact Bool.false_ne_true
      rw [List.filter_append, hdangling, List.nil_append, hsymbols.filter_isCollisionOf_collisions]
      rfl

/-! ## The results -/

/-- What is known of duplicates where identical rows are allowed, and what is reported then,
    compared with what is known and reported where they are not. -/
structure ToleratesRepeats (strict tolerant : SymbolTable) (reported reportedTolerant :
    List LinkIssue) : Prop where
  size : tolerant.size = strict.size
  lookup : ∀ name, tolerant.lookup name = strict.lookup name
  /-- The duplicates that repeat their owner are missing. -/
  duplicates : ∀ k s, strict.get? k = some s → ∃ s', tolerant.get? k = some s' ∧
    s'.owner = s.owner ∧
    s'.duplicates.toList = s.duplicates.toList.filter fun d => !s.owner.row.isIdentical d.row
  /-- There is one warning of the name for each of these. -/
  warnings : ∀ k s, strict.get? k = some s →
    reportedTolerant.filter (·.isRepetitionOf s.name) =
      (s.duplicates.toList.filter fun d => s.owner.row.isIdentical d.row).map fun d =>
        .identicalDuplicateRow s.name d.location s.owner.location
  conflicts : ∀ name location, .conflictingDuplicateSymbol name location ∈ reportedTolerant →
    .conflictingDuplicateSymbol name location ∈ reported
  redefinitions : ∀ name, (reportedTolerant.filter (·.isRedefinitionOf name)).Sublist
    (reported.filter (·.isRedefinitionOf name))

theorem collisionsOf_sublist {l l' : Linkage} {strict : SymbolTable} {allowIdentical : Bool}
    (h : SymbolTable.Tolerant false strict l.symbols)
    (h' : SymbolTable.Tolerant allowIdentical strict l'.symbols) (hreach : l'.reach = l.reach)
    (roles : TableRoles) (name : String) :
    (l'.collisionsOf roles name).Sublist (l.collisionsOf roles name) := by
  rw [Linkage.collisionsOf, Linkage.collisionsOf, h.find?_eq, h'.find?_eq, hreach]
  cases strict.find? name with
  | none => exact List.Sublist.refl _
  | some s =>
    simp only [Option.map_some, Option.getD_some, s.withoutRepeats_false]
    exact collisionIssues_withoutRepeats_sublist _ _ _ _

/-- No name collides that did not collide before, and at no further place. -/
theorem collisionsOf_tuned_sublist (settings : LinkSettings) (sections : Array Section)
    (expected expected' : SectionKind) (log log' : Log LinkIssue) (name : String) :
    ((link (settings.tuned true expected') sections log').1.elim [] fun l =>
        l.collisionsOf settings.roles name).Sublist
      ((link (settings.tuned false expected) sections log).1.elim [] fun l =>
        l.collisionsOf settings.roles name) := by
  have hrel := link_tuned_rel settings sections false true expected expected' log log'
  cases h : (link (settings.tuned false expected) sections log).1 with
  | none =>
    cases h' : (link (settings.tuned true expected') sections log').1 with
    | none => exact List.Sublist.refl _
    | some l' =>
      rw [h, h'] at hrel
      cases hrel
  | some l =>
    cases h' : (link (settings.tuned true expected') sections log').1 with
    | none => exact List.nil_sublist _
    | some l' =>
      rw [h, h'] at hrel
      cases hrel with
      | some hsame =>
        exact collisionsOf_sublist (tolerant_link h) (tolerant_link h') hsame.reach _ _

/-- The messages about one name in a list of which some others are part. -/
theorem filter_isRedefinitionOf_sublist {xs ys : List LinkIssue} {name : String}
    (h : (xs.filter (·.isCollisionOf name)).Sublist (ys.filter (·.isCollisionOf name))) :
    (xs.filter (·.isRedefinitionOf name)).Sublist (ys.filter (·.isRedefinitionOf name)) := by
  have hfilter : ∀ l : List LinkIssue, (l.filter (·.isCollisionOf name)).filter
      (·.isRedefinitionOf name) = l.filter (·.isRedefinitionOf name) := by
    intro l
    rw [List.filter_filter]
    refine List.filter_congr fun x _ => ?_
    cases hx : x.isRedefinitionOf name with
    | false => rfl
    | true => rw [LinkIssue.isCollisionOf_of_isRedefinitionOf hx, Bool.and_self]
  rw [← hfilter xs, ← hfilter ys]
  exact h.filter _

theorem filter_isRepetitionOf_of_get? {symbols : SymbolTable} {sections : List Section}
    (h : symbols.Records false (definitionsOf sections)) {k : SymbolIndex} {s : Symbol}
    (hs : symbols.get? k = some s) (expected : SectionKind) :
    (surveyIssues true expected sections).filter (·.isRepetitionOf s.name) =
      (s.duplicates.toList.filter fun d => s.owner.row.isIdentical d.row).map fun d =>
        .identicalDuplicateRow s.name d.location s.owner.location := by
  obtain ⟨later, hlater, hduplicates⟩ := h.definitionsNamed_eq_cons hs
  have hnames : ∀ d ∈ later, d.name = s.owner.name := fun d hd =>
    (mem_definitionsNamed_iff.1 (hlater ▸ List.mem_cons_of_mem _ hd)).2
  have hall : s.duplicates.toList = later := by
    rw [hduplicates]
    exact List.filter_eq_self.2 fun _ _ => rfl
  rw [filter_isRepetitionOf_surveyIssues, hlater, repetitions_cons true hnames, hall]
  rfl

/-- **What is tolerated and expected does not decide on what is linked.**  Links of the
    same sections with the same roles that build the same kind of output agree, whether or
    not identical rows are allowed and whatever kind of entry is expected.  Where identical
    rows are allowed, the duplicates that repeat their owner give rise to one warning each
    and count no more, so that no name collides that did not collide before, and at no
    further place. -/
theorem link_tuned (settings : LinkSettings) (sections : Array Section) :
    (∀ allowIdentical allowIdentical' expected expected' log log',
      Option.Rel Linkage.Same (link (settings.tuned allowIdentical expected) sections log).1
        (link (settings.tuned allowIdentical' expected') sections log').1) ∧
    ∀ expected expected' log log', ∃ reported reportedTolerant,
      (link (settings.tuned false expected) sections log).2.toList = log.toList ++ reported ∧
      (link (settings.tuned true expected') sections log').2.toList =
        log'.toList ++ reportedTolerant ∧
      ToleratesRepeats (survey sections false expected log).1.symbols
        (survey sections true expected' log').1.symbols reported reportedTolerant := by
  refine ⟨link_tuned_rel settings sections, fun expected expected' log log' => ?_⟩
  obtain ⟨later, hlog, hlater⟩ := exists_toList_link (settings.tuned false expected) sections log
  obtain ⟨later', hlog', hlater'⟩ :=
    exists_toList_link (settings.tuned true expected') sections log'
  have hcollisions : ∀ name, ((surveyIssues true expected' sections.toList ++ later').filter
      (·.isCollisionOf name)).Sublist ((surveyIssues false expected sections.toList ++ later).filter
        (·.isCollisionOf name)) := by
    intro name
    rw [List.filter_append, List.filter_append, filter_isCollisionOf_surveyIssues,
      filter_isCollisionOf_surveyIssues, List.nil_append, List.nil_append, (hlater name).2,
      (hlater' name).2]
    exact collisionsOf_tuned_sublist settings sections expected expected' log log' name
  have htolerant := SymbolTable.tolerant_defineAll true (definitionsOf sections.toList)
  rw [← symbols_survey sections true expected' log', ← symbols_survey sections false expected log]
    at htolerant
  obtain ⟨-, hsymbols, -⟩ := survey_covers sections false expected log
  refine ⟨_, _, hlog, hlog', htolerant.size, htolerant.lookup, fun k s hs => ?_, fun k s hs => ?_,
    fun name location hconflict => ?_,
    fun name => filter_isRedefinitionOf_sublist (hcollisions name)⟩
  · refine ⟨s.withoutRepeats true, ?_, rfl, ?_⟩
    · rw [htolerant.get?_eq, hs, Option.map_some]
    · rw [Symbol.withoutRepeats, Array.toList_filter]
      rfl
  · rw [List.filter_append, (hlater' s.name).1, List.append_nil]
    exact filter_isRepetitionOf_of_get? hsymbols hs expected'
  · have hmem := (hcollisions name).subset (List.mem_filter.2 ⟨hconflict, beq_self_eq_true name⟩)
    exact List.mem_of_mem_filter hmem

/-- A section that refers to some components and defines others, each with a value. -/
def valuedSection (id : String) (kind : SectionKind) (references : List String)
    (components : List (String × String)) : Section :=
  (componentSection id kind references []).addTable
    ⟨⟨"Component", [], true⟩, components.map fun p => ⟨[.string p.1, .string p.2], .unknown⟩⟩

/-- A product, and a fragment that it needs, which defines a component of the product anew,
    once as it is and once with another value. -/
def repeatedRow : Array Section :=
  #[valuedSection "main" .product ["x"] [("a", "1")],
    valuedSection "left" .fragment [] [("x", "0"), ("a", "1"), ("a", "2")]]

/-- The row that is the same counts as a duplicate, or is warned of. -/
theorem link_tuned_repeatedRow :
    (∃ l l', (link {} repeatedRow ∅).1 = some l ∧
      (link { allowIdenticalRows := true } repeatedRow ∅).1 = some l' ∧ l.Same l') ∧
    ∃ reported reportedTolerant,
      reported = [.conflictingDuplicateSymbol "Component:a" .unknown,
        .duplicateSymbolLocation "Component:a" .unknown,
        .duplicateSymbolLocation "Component:a" .unknown] ∧
      reportedTolerant = [.identicalDuplicateRow "Component:a" .unknown .unknown,
        .conflictingDuplicateSymbol "Component:a" .unknown,
        .duplicateSymbolLocation "Component:a" .unknown] ∧
      ToleratesRepeats (survey repeatedRow false .unknown ∅).1.symbols
        (survey repeatedRow true .unknown ∅).1.symbols reported reportedTolerant := by
  obtain ⟨hrel, hreports⟩ := link_tuned {} repeatedRow
  constructor
  · have hsome : (link {} repeatedRow ∅).1.isSome = true := by decide +kernel
    obtain ⟨l, hl⟩ := Option.isSome_iff_exists.1 hsome
    have hsame := hrel false true .unknown .unknown ∅ ∅
    rw [show (link (({} : LinkSettings).tuned false .unknown) repeatedRow ∅).1 = some l from hl]
      at hsame
    generalize hl' : (link (({} : LinkSettings).tuned true .unknown) repeatedRow ∅).1 = r at hsame
    cases hsame with
    | some hsame => exact ⟨l, _, hl, hl', hsame⟩
  · obtain ⟨reported, reportedTolerant, hlog, hlog', htolerates⟩ :=
      hreports .unknown .unknown ∅ ∅
    refine ⟨reported, reportedTolerant, ?_, ?_, htolerates⟩
    · rw [← List.nil_append reported]
      exact hlog.symm.trans (by decide +kernel)
    · rw [← List.nil_append reportedTolerant]
      exact hlog'.symm.trans (by decide +kernel)

end InstallerLinker
