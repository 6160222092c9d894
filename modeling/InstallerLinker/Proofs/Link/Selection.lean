/-
  Installer linker — the link of some of the sections.

  Sections can be left out of a link and put in another order.  The link of the
  sections at given positions agrees with the link of all of them if both start
  from the same section and each name that is asked for has the same owner.

  * `sectionsAt` are the sections at given positions, and `Selects` says that these
    are positions of sections, each of them once;
  * `definitionsAt` are the definitions of one section, and
    `Selects.map_move_definitionsOf` gives those of a selection, in which only the
    positions differ;
  * `Selects.findIdx?_bind` finds the entry of the selection;
  * `Linkage.Agrees` compares two results, and `Selects.agrees` is the result.
-/
import Mathlib.Data.List.Induction
import InstallerLinker.Proofs.Link.ErrorFree
import InstallerLinker.Proofs.Reach.Renumbering

namespace InstallerLinker

/-- The sections at the given positions, in the order given. -/
def sectionsAt (sections : Array Section) (picks : List SectionIndex) : Array Section :=
  (picks.filterMap (sections[·]?)).toArray

/-- The positions are those of sections, and each is given once. -/
structure Selects (sections : Array Section) (picks : List SectionIndex) : Prop where
  nodup : picks.Nodup
  lt_size : ∀ i ∈ picks, i < sections.size

/-- The position in `picks` as a position in the list selected from. -/
def pickAt (picks : List SectionIndex) (i : SectionIndex) : SectionIndex := picks.getD i 0

theorem getElem?_eq_some_pickAt {picks : List SectionIndex} {i : SectionIndex}
    (hi : i < picks.length) : picks[i]? = some (pickAt picks i) := by
  simp [pickAt, hi]

theorem pickAt_eq {picks : List SectionIndex} {i k : SectionIndex} (h : picks[i]? = some k) :
    pickAt picks i = k := by
  rw [pickAt, List.getD_eq_getElem?_getD, h, Option.getD_some]

theorem pickAt_mem {picks : List SectionIndex} {i : SectionIndex} (hi : i < picks.length) :
    pickAt picks i ∈ picks :=
  List.mem_of_getElem? (getElem?_eq_some_pickAt hi)

theorem map_pickAt_range (picks : List SectionIndex) :
    (List.range picks.length).map (pickAt picks) = picks := by
  refine List.ext_getElem (by simp) fun i _ hi => ?_
  simp [pickAt, hi]

/-- All positions, in order, are those of all sections. -/
theorem selects_range (sections : Array Section) :
    Selects sections (List.range sections.size) :=
  ⟨List.nodup_range, fun _ hi => List.mem_range.1 hi⟩

/-- Where all elements lead somewhere, none of them is lost. -/
theorem map_some_filterMap {α β : Type} {f : α → Option β} {l : List α}
    (h : ∀ a ∈ l, ∃ b, f a = some b) : (l.filterMap f).map some = l.map f := by
  have hsome : ∀ a ∈ l, (f a).map some = some (f a) := by
    intro a ha
    obtain ⟨b, hb⟩ := h a ha
    rw [hb, Option.map_some]
  rw [List.map_filterMap, List.filterMap_congr hsome]
  exact congrFun List.filterMap_eq_map l

section
variable {sections : Array Section} {picks : List SectionIndex}

/-! ## The sections -/

namespace Selects

theorem injective (h : Selects sections picks) {i j : SectionIndex} (hi : i < picks.length)
    (hj : j < picks.length) (hij : pickAt picks i = pickAt picks j) : i = j := by
  have hi' := getElem?_eq_some_pickAt hi
  rw [hij, ← getElem?_eq_some_pickAt hj] at hi'
  exact (List.getElem?_inj hi h.nodup).1 hi'

theorem map_some_toList (h : Selects sections picks) :
    (sectionsAt sections picks).toList.map some = picks.map (sections[·]?) :=
  map_some_filterMap fun i hi => ⟨_, Array.getElem?_eq_getElem (h.lt_size i hi)⟩

theorem size_sectionsAt (h : Selects sections picks) :
    (sectionsAt sections picks).size = picks.length := by
  have := congrArg List.length h.map_some_toList
  simpa using this

theorem getElem?_pickAt (h : Selects sections picks) {i : SectionIndex} (hi : i < picks.length) :
    sections[pickAt picks i]? = (sectionsAt sections picks)[i]? := by
  have heq := congrArg (·[i]?) h.map_some_toList
  have hlt : i < (sectionsAt sections picks).size := by rwa [h.size_sectionsAt]
  simp only [List.getElem?_map, Array.getElem?_toList, getElem?_eq_some_pickAt hi,
    Array.getElem?_eq_getElem hlt, Option.map_some, Option.some.injEq] at heq
  rw [← heq, Array.getElem?_eq_getElem hlt]

end Selects

/-- All sections in order are the sections. -/
theorem sectionsAt_range (sections : Array Section) :
    sectionsAt sections (List.range sections.size) = sections := by
  refine Array.ext_getElem? fun i => ?_
  have h := selects_range sections
  by_cases hi : i < sections.size
  · have hlen : i < (List.range sections.size).length := by rwa [List.length_range]
    rw [← h.getElem?_pickAt hlen]
    simp [pickAt, hi]
  · have hle := Nat.le_of_not_lt hi
    rw [Array.getElem?_eq_none hle, Array.getElem?_eq_none]
    rwa [h.size_sectionsAt, List.length_range]

/-! ## The entry -/

theorem decide_isEntryAt (sections : Array Section) (i : SectionIndex) :
    decide (IsEntryAt sections i) = (sections[i]?).any (·.kind.isEntry) := by
  rw [Bool.eq_iff_iff, decide_eq_true_iff, isEntryAt_iff]

theorem Selects.findIdx?_isEntry (h : Selects sections picks) :
    (sectionsAt sections picks).toList.findIdx? (·.kind.isEntry) =
      picks.findIdx? fun i => decide (IsEntryAt sections i) := by
  have hmap := congrArg (List.findIdx? (Option.any (·.kind.isEntry))) h.map_some_toList
  rw [List.findIdx?_map, List.findIdx?_map] at hmap
  refine Eq.trans hmap ?_
  congr 1
  funext i
  exact (decide_isEntryAt sections i).symm

/-- A link of the selection starts at the first position in it from which a link
    can start. -/
theorem Selects.findIdx?_bind (h : Selects sections picks) :
    ((sectionsAt sections picks).toList.findIdx? (·.kind.isEntry)).bind (picks[·]?) =
      picks.find? fun i => decide (IsEntryAt sections i) := by
  rw [h.findIdx?_isEntry, List.find?_eq_bind_findIdx?_getElem?]

theorem find?_isEntryAt_range (sections : Array Section) :
    (List.range sections.size).find? (fun i => decide (IsEntryAt sections i)) =
      sections.toList.findIdx? (·.kind.isEntry) := by
  rw [← (selects_range sections).findIdx?_bind, sectionsAt_range]
  cases he : sections.toList.findIdx? (·.kind.isEntry) with
  | none => rfl
  | some entry =>
    have hlt : entry < sections.size := (List.findIdx?_eq_some_iff_getElem.1 he).1
    rw [Option.bind_some, List.getElem?_range hlt]

theorem Selects.map_some_filter (h : Selects sections picks) :
    ((sectionsAt sections picks).toList.filter (·.kind.isEntry)).map some =
      (picks.filter fun i => decide (IsEntryAt sections i)).map (sections[·]?) := by
  have hmap := congrArg (List.filter (Option.any (·.kind.isEntry))) h.map_some_toList
  rw [List.filter_map, List.filter_map] at hmap
  refine Eq.trans hmap ?_
  congr 1
  exact List.filter_congr fun i _ => (decide_isEntryAt sections i).symm

/-! ## The definitions -/

/-- The definition in a section at another position. -/
def Definition.move (pick : SectionIndex → SectionIndex) (d : Definition) : Definition :=
  { d with sectionIndex := pick d.sectionIndex }

@[simp] theorem Definition.name_move (pick : SectionIndex → SectionIndex) (d : Definition) :
    (d.move pick).name = d.name := rfl

/-- The definitions of the section at position `i`. -/
def definitionsAt (sections : Array Section) (i : SectionIndex) : List Definition :=
  match sections[i]? with
  | none => []
  | some s => s.definitions i

theorem sectionIndex_of_mem_definitions {s : Section} {i : SectionIndex} {d : Definition}
    (h : d ∈ s.definitions i) : d.sectionIndex = i := by
  simp only [Section.definitions, List.mem_flatMap, List.mem_map] at h
  obtain ⟨t, -, r, -, rfl⟩ := h
  rfl

theorem sectionIndex_of_mem_definitionsAt {i : SectionIndex} {d : Definition}
    (h : d ∈ definitionsAt sections i) : d.sectionIndex = i := by
  unfold definitionsAt at h
  split at h
  · exact absurd h List.not_mem_nil
  · exact sectionIndex_of_mem_definitions h

theorem map_move_definitions (pick : SectionIndex → SectionIndex) (s : Section)
    (i : SectionIndex) :
    (s.definitions i).map (Definition.move pick) = s.definitions (pick i) := by
  simp only [Section.definitions, List.map_flatMap, List.map_map]
  rfl

theorem definitionsOf_eq_flatMap (sections : Array Section) :
    definitionsOf sections.toList =
      (List.range sections.size).flatMap (definitionsAt sections) := by
  obtain ⟨l⟩ := sections
  show definitionsOf l = (List.range l.length).flatMap (definitionsAt l.toArray)
  induction l using List.reverseRecOn with
  | nil => rfl
  | append_singleton l s ih =>
    rw [definitionsOf_append_singleton, ih, List.length_append, List.length_singleton,
      List.range_succ, List.flatMap_append, List.flatMap_singleton]
    congr 1
    · refine List.flatMap_congr fun i hi => ?_
      have hlt := List.mem_range.1 hi
      simp [definitionsAt, List.getElem?_append_left hlt]
    · simp [definitionsAt]

/-- Elements of which nothing comes can be left out. -/
theorem flatMap_filter_of_eq_nil {α β : Type} {p : α → Bool} {f : α → List β} {l : List α}
    (h : ∀ a ∈ l, p a = false → f a = []) : (l.filter p).flatMap f = l.flatMap f := by
  induction l with
  | nil => rfl
  | cons a l ih =>
    have hl := ih fun b hb => h b (List.mem_cons_of_mem a hb)
    cases hp : p a with
    | true => rw [List.filter_cons_of_pos hp, List.flatMap_cons, List.flatMap_cons, hl]
    | false =>
      rw [List.filter_cons_of_neg (Bool.eq_false_iff.1 hp), List.flatMap_cons,
        h a (List.mem_cons_self ..) hp, hl, List.nil_append]

/-- Up to the positions, the definitions of a selection are those of the sections
    selected. -/
theorem Selects.map_move_definitionsOf (h : Selects sections picks) :
    (definitionsOf (sectionsAt sections picks).toList).map (Definition.move (pickAt picks)) =
      picks.flatMap (definitionsAt sections) := by
  have hat : ∀ i ∈ List.range picks.length,
      (definitionsAt (sectionsAt sections picks) i).map (Definition.move (pickAt picks)) =
        definitionsAt sections (pickAt picks i) := by
    intro i hi
    have hi := h.getElem?_pickAt (List.mem_range.1 hi)
    rw [definitionsAt, definitionsAt, ← hi]
    split
    · rfl
    · exact map_move_definitions _ _ _
  rw [definitionsOf_eq_flatMap, h.size_sectionsAt, List.map_flatMap, List.flatMap_congr hat,
    ← List.flatMap_map, map_pickAt_range]

theorem sectionIndex_lt_size {d : Definition} (h : d ∈ definitionsOf sections.toList) :
    d.sectionIndex < sections.size := by
  rw [definitionsOf_eq_flatMap, List.mem_flatMap] at h
  obtain ⟨i, hi, hd⟩ := h
  rw [sectionIndex_of_mem_definitionsAt hd]
  exact List.mem_range.1 hi

end

/-! ## The searches -/

/-- The definition that owns a name in the table that records the definitions. -/
theorem ownerOf_scope {settings : LinkSettings} {sections : Array Section} {symbols : SymbolTable}
    {allowIdentical : Bool} {ds : List Definition} (h : symbols.Records allowIdentical ds)
    (entry : SectionIndex) (name : String) :
    (settings.scope sections symbols entry).ownerOf name = ds.find? (·.name == name) :=
  h.map_owner_find? name

section
variable {settings : LinkSettings} {sections : Array Section} {picks : List SectionIndex}
  {symbols symbols' : SymbolTable} {entry entry' : SectionIndex} {allowIdentical : Bool}

theorem Selects.referencesAt_pickAt (h : Selects sections picks) {i : SectionIndex}
    (hi : i < picks.length) :
    (settings.scope sections symbols entry).referencesAt (pickAt picks i) =
      (settings.scope (sectionsAt sections picks) symbols' entry').referencesAt i := by
  unfold Scope.referencesAt
  rw [show (settings.scope sections symbols entry).sections = sections from rfl,
    h.getElem?_pickAt hi]
  rfl

/-- The entry stands for the same section, so the same output is built. -/
theorem Selects.getElem?_entry (h : Selects sections picks) (hentry : picks[entry']? = some entry) :
    sections[entry]? = (sectionsAt sections picks)[entry']? := by
  obtain ⟨hlt, -⟩ := List.getElem?_eq_some_iff.1 hentry
  rw [← pickAt_eq hentry, h.getElem?_pickAt hlt]

theorem Selects.buildsMergeModule_eq (h : Selects sections picks)
    (hentry : picks[entry']? = some entry) (settings : LinkSettings) :
    settings.buildsMergeModule (sectionsAt sections picks) entry' =
      settings.buildsMergeModule sections entry := by
  rw [LinkSettings.buildsMergeModule, LinkSettings.buildsMergeModule, h.getElem?_entry hentry]

/-- The selection is searched as all sections are if the names that it asks for
    have the same owners. -/
theorem Selects.renumbers (h : Selects sections picks)
    (hsymbols : symbols.Records allowIdentical (definitionsOf sections.toList))
    (hsymbols' : symbols'.Records allowIdentical
      (definitionsOf (sectionsAt sections picks).toList))
    (hentry : picks[entry']? = some entry)
    (howner : ∀ i ∈ picks, ∀ r ∈ (settings.scope sections symbols entry).referencesAt i,
      (settings.scope sections symbols entry).skips r = false →
        (picks.flatMap (definitionsAt sections)).find? (·.name == r.targetName) =
          (definitionsOf sections.toList).find? (·.name == r.targetName)) :
    Scope.Renumbers (pickAt picks) (settings.scope (sectionsAt sections picks) symbols' entry')
      (settings.scope sections symbols entry) := by
  have hmerge := h.buildsMergeModule_eq hentry settings
  have hsize := h.size_sectionsAt
  refine ⟨hsymbols'.lookup_iff, hsymbols.lookup_iff, rfl, hmerge, ?_, ?_, ?_, ?_⟩
  · intro i hi
    exact h.getElem?_pickAt (hsize ▸ hi)
  · intro i hi j hj hij
    exact h.injective (hsize ▸ hi) (hsize ▸ hj) hij
  · intro i r hr hskip
    have hi : i < picks.length := hsize ▸ Scope.lt_size_of_mem_referencesAt hr
    rw [← h.referencesAt_pickAt hi] at hr
    simp only [Scope.skips, LinkSettings.scope, hmerge] at hskip
    have hfind := howner _ (pickAt_mem hi) r hr hskip
    rw [ownerOf_scope hsymbols, ownerOf_scope hsymbols', ← hfind, ← h.map_move_definitionsOf,
      List.find?_map, Option.map_map]
    rfl
  · intro name d hd
    rw [ownerOf_scope hsymbols'] at hd
    exact sectionIndex_lt_size (List.mem_of_find?_eq_some hd)

end

/-! ## The results -/

/-- Two results agree, where the sections of the second one stand at the positions
    `picks` among those of the first one: they start from the same section, visit
    the same sections, ask for the same names, and miss the same ones, all in the
    same order. -/
structure Linkage.Agrees (picks : List SectionIndex) (l l' : Linkage) : Prop where
  entry : picks[l'.entry]? = some l.entry
  entrySection : l'.entrySection = l.entrySection
  visits : l'.reach.sections.toList.map (picks[·]?) = l.reach.sections.toList.map some
  reachedSections : l'.reachedSections = l.reachedSections
  names : l'.referencedSymbols.map (·.name) = l.referencedSymbols.map (·.name)
  dangling : l'.reach.dangling.toList.map (fun d => (picks[d.sectionIndex]?, d.reference)) =
    l.reach.dangling.toList.map fun d => (some d.sectionIndex, d.reference)

/-- Results that agree report the same references. -/
theorem Linkage.Agrees.issues {picks : List SectionIndex} {l l' : Linkage} (h : Agrees picks l l') :
    l'.reach.dangling.toList.map DanglingReference.issue =
      l.reach.dangling.toList.map DanglingReference.issue := by
  have hissue := congrArg (List.map fun p : Option SectionIndex × Reference =>
    LinkIssue.unresolvedReference p.2.targetName p.2.location) h.dangling
  rwa [List.map_map, List.map_map] at hissue

section
variable {settings : LinkSettings} {sections : Array Section} {picks : List SectionIndex}
  {symbols symbols' : SymbolTable} {entry entry' : SectionIndex} {reach reach' : Reach}

namespace Selects
variable (h : Selects sections picks) (hentry : picks[entry']? = some entry)
  (hr : Scope.Renumbers (pickAt picks) (settings.scope (sectionsAt sections picks) symbols' entry')
    (settings.scope sections symbols entry))
  (hreach : reach = (settings.scope sections symbols entry).reachFrom entry)
  (hreach' : reach' =
    (settings.scope (sectionsAt sections picks) symbols' entry').reachFrom entry')
include h hentry hr hreach hreach'

theorem includes_eq {i : SectionIndex} (hi : i < (sectionsAt sections picks).size) :
    reach'.includes i = reach.includes (pickAt picks i) := by
  obtain ⟨hlt, -⟩ := List.getElem?_eq_some_iff.1 hentry
  have hsame := hr.includes_reachFrom (h.size_sectionsAt.symm ▸ hlt) hi
  rw [pickAt_eq hentry, ← hreach, ← hreach'] at hsame
  exact hsame.symm

/-- Searches that differ in the positions alone give results that agree. -/
theorem agrees : Linkage.Agrees picks ⟨sections, entry, symbols, reach⟩
    ⟨sectionsAt sections picks, entry', symbols', reach'⟩ := by
  obtain ⟨hlt, -⟩ := List.getElem?_eq_some_iff.1 hentry
  have hlt' : entry' < (settings.scope (sectionsAt sections picks) symbols' entry').sections.size :=
    h.size_sectionsAt.symm ▸ hlt
  have hpick : ∀ i < (settings.scope (sectionsAt sections picks) symbols' entry').sections.size,
      picks[i]? = some (pickAt picks i) :=
    fun i hi => getElem?_eq_some_pickAt (h.size_sectionsAt ▸ hi)
  have hsections := hr.sections_reachFrom hlt'
  have hnames := hr.names_reachFrom hlt'
  have hdangling := hr.dangling_reachFrom hlt'
  rw [pickAt_eq hentry] at hsections hnames hdangling
  subst hreach hreach'
  refine ⟨hentry, (h.getElem?_entry hentry).symm, ?_, ?_, hnames.symm, ?_⟩
  · rw [hsections, List.map_map]
    exact List.map_congr_left fun i hi => hpick i (Scope.lt_size_of_mem_sections hi)
  · rw [Linkage.reachedSections, Linkage.reachedSections, hsections, List.filterMap_map]
    refine List.filterMap_congr fun i hi => ?_
    exact (h.getElem?_pickAt (h.size_sectionsAt ▸ Scope.lt_size_of_mem_sections hi)).symm
  · rw [hdangling, List.map_map]
    refine List.map_congr_left fun d hd => ?_
    rw [hpick _ (Scope.mem_dangling_iff.1 hd).1.lt_size]
    rfl

end Selects

end

end InstallerLinker
