/-
  Installer linker — searches that differ in the positions alone.

  What a search finds does not depend on where the sections and the symbols
  stand: if the sections of one scope are found at other positions in another
  one, and the names that they ask for have corresponding owners, then the two
  searches go hand in hand.

  * `Passes.named`: the names of the symbols referred to are read off the
    references, so they do not depend on the positions of the symbols;
  * `Renumbers pick g' g` says that `pick` takes each section of the scope `g'` to
    its position in `g`, and keeps the owners; sections of `g` may be left out;
  * `Renumbers.passes` is the simulation: each state of the search of `g'` goes with
    one of the search of `g`;
  * `Renumbers.sections_reachFrom`, `names_reachFrom` and `dangling_reachFrom`
    compare the results.
-/
import InstallerLinker.Proofs.Reach.Exactness
import InstallerLinker.Proofs.Symbols

namespace InstallerLinker

/-! ## The names of the symbols -/

namespace SymbolTable

/-- Each name is looked up at the position of the symbol that has it. -/
def Indexed (t : SymbolTable) : Prop :=
  ∀ name k, t.lookup name = some k ↔ ∃ s, t.get? k = some s ∧ s.name = name

/-- The names of the symbols at the given positions. -/
def namesAt (t : SymbolTable) (ks : List SymbolIndex) : List String :=
  (ks.filterMap t.get?).map (·.name)

variable {t : SymbolTable} {name : String} {k : SymbolIndex}

theorem namesAt_append (t : SymbolTable) (ks ks' : List SymbolIndex) :
    t.namesAt (ks ++ ks') = t.namesAt ks ++ t.namesAt ks' := by
  simp [namesAt]

theorem Indexed.namesAt_singleton (h : t.Indexed) (hk : t.lookup name = some k) :
    t.namesAt [k] = [name] := by
  obtain ⟨s, hs, hname⟩ := (h name k).1 hk
  simp [namesAt, hs, hname]

theorem Indexed.mem_namesAt_iff (h : t.Indexed) (hk : t.lookup name = some k)
    {ks : List SymbolIndex} : name ∈ t.namesAt ks ↔ k ∈ ks := by
  simp only [namesAt, List.mem_map, List.mem_filterMap]
  constructor
  · rintro ⟨s, ⟨k', hk', hs⟩, hname⟩
    have hlook := (h name k').2 ⟨s, hs, hname⟩
    rw [hk] at hlook
    cases hlook
    exact hk'
  · intro hmem
    obtain ⟨s, hs, hname⟩ := (h name k).1 hk
    exact ⟨s, ⟨k, hmem, hs⟩, hname⟩

end SymbolTable

namespace Scope

variable {g : Scope} {entry : SectionIndex} {read : List (SectionIndex × Reference)}
  {t : Traversal}

theorem ownerOf_eq_none_iff (hg : g.symbols.Indexed) {name : String} :
    g.ownerOf name = none ↔ g.symbols.lookup name = none := by
  rw [ownerOf, Option.map_eq_none_iff]
  cases hk : g.symbols.lookup name with
  | none => simp [SymbolTable.find?, hk]
  | some k =>
    obtain ⟨s, hs, -⟩ := (hg name k).1 hk
    simp [SymbolTable.find?, hk, hs]

/-- The name that a reference asks for, unless it is passed over or leads nowhere. -/
def foundName? (g : Scope) (r : Reference) : Option String :=
  if g.skips r || g.dangles r then none else some r.targetName

theorem symbols_follow_cases (t : Traversal) (i : SectionIndex) (r : Reference) :
    (g.foundName? r = none ∧ (g.follow t i r).reach.symbols = t.reach.symbols) ∨
      ∃ k, g.symbols.lookup r.targetName = some k ∧ g.foundName? r = some r.targetName ∧
        (g.follow t i r).reach.symbols = t.reach.symbols.insert k := by
  rw [symbols_follow, askedSymbol?, foundName?, dangles]
  cases hskip : g.skips r with
  | true => exact Or.inl ⟨rfl, rfl⟩
  | false =>
    cases hk : g.symbols.lookup r.targetName with
    | none => exact Or.inl ⟨rfl, rfl⟩
    | some k => exact Or.inr ⟨k, rfl, rfl, rfl⟩

/-- What holds of the symbols referred to when the references in `read` have been
    read. -/
structure Named (g : Scope) (read : List (SectionIndex × Reference)) (symbols : IndexSet) :
    Prop where
  consistent : symbols.Consistent
  capacity : symbols.capacity = g.symbols.size
  names : g.symbols.namesAt symbols.toList = (read.filterMap (g.foundName? ·.2)).eraseDups

theorem Named.follow (hg : g.symbols.Indexed) (h : g.Named read t.reach.symbols)
    (i : SectionIndex) (r : Reference) :
    g.Named (read ++ [(i, r)]) (g.follow t i r).reach.symbols := by
  rcases symbols_follow_cases (g := g) t i r with ⟨hr, hs⟩ | ⟨k, hk, hr, hs⟩
  · rw [hs]
    refine ⟨h.consistent, h.capacity, ?_⟩
    rw [h.names, List.filterMap_append]
    simp [hr]
  · rw [hs]
    refine ⟨h.consistent.insert k, (IndexSet.capacity_insert _ _).trans h.capacity, ?_⟩
    have hlt : k < t.reach.symbols.capacity := by
      obtain ⟨s, hget, -⟩ := (hg _ _).1 hk
      rw [h.capacity]
      exact SymbolTable.Records.get?_lt_size hget
    have hmem : r.targetName ∈ read.filterMap (g.foundName? ·.2) ↔ k ∈ t.reach.symbols.toList := by
      rw [← hg.mem_namesAt_iff hk, h.names, List.mem_eraseDups]
    rw [List.filterMap_append, List.eraseDups_append, ← h.names, IndexSet.toList_insert]
    by_cases hin : k ∈ t.reach.symbols.toList
    · have hfree : t.reach.symbols.isFree k = false := by
        rw [← Bool.not_eq_true, h.consistent.isFree_iff]
        exact fun hfree => hfree.2 hin
      simp [hr, hfree, List.removeAll, hmem.2 hin]
    · have hfree := h.consistent.isFree_iff.2 ⟨hlt, hin⟩
      have hnot := mt hmem.1 hin
      rw [if_pos hfree, SymbolTable.namesAt_append, hg.namesAt_singleton hk]
      simp [hr, List.removeAll, hnot, List.eraseDups_cons]

/-- The symbols referred to are those that the references read ask for, each
    where it is first asked for. -/
theorem Passes.named (hg : g.symbols.Indexed) (h : g.Passes entry read t) :
    g.Named read t.reach.symbols := by
  induction h with
  | start =>
    rw [Scope.start, symbols_visit]
    exact ⟨IndexSet.consistent_empty _, IndexSet.capacity_empty _, rfl⟩
  | leave _ _ ih => exact ih
  | @follow read reach f below r cursor _ _ ih =>
    exact Named.follow (t := ⟨reach, ⟨f.sectionIndex, cursor⟩ :: below⟩) hg ih _ _

/-! ## Other positions -/

/-- The scope `g'` has some of the sections of `g`, where `pick` tells the position
    that each of them has in `g`; the names that they ask for have the same owners
    in both. -/
structure Renumbers (pick : SectionIndex → SectionIndex) (g' g : Scope) : Prop where
  indexed' : g'.symbols.Indexed
  indexed : g.symbols.Indexed
  roles : g'.roles = g.roles
  mergeModule : g'.mergeModule = g.mergeModule
  sections : ∀ i < g'.sections.size, g.sections[pick i]? = g'.sections[i]?
  injective : ∀ i < g'.sections.size, ∀ j < g'.sections.size, pick i = pick j → i = j
  owner : ∀ i, ∀ r ∈ g'.referencesAt i, g'.skips r = false →
    (g'.ownerOf r.targetName).map (pick ·.sectionIndex) =
      (g.ownerOf r.targetName).map (·.sectionIndex)
  owner_lt : ∀ name d, g'.ownerOf name = some d → d.sectionIndex < g'.sections.size

/-- The frame of the same section at its other position. -/
def moveFrame (pick : SectionIndex → SectionIndex) (f : Frame) : Frame :=
  { f with sectionIndex := pick f.sectionIndex }

namespace Renumbers
variable {pick : SectionIndex → SectionIndex} {g' : Scope}

section
variable (h : Renumbers pick g' g)
include h

theorem skips_eq (r : Reference) : g'.skips r = g.skips r := by
  rw [Scope.skips, Scope.skips, h.roles, h.mergeModule]

theorem pick_lt_size {i : SectionIndex} (hi : i < g'.sections.size) : pick i < g.sections.size := by
  have hs := h.sections i hi
  rw [Array.getElem?_eq_getElem hi] at hs
  exact (Array.getElem?_eq_some_iff.1 hs).1

/-- A name that is asked for is missing in both scopes or in neither. -/
theorem lookup_eq_none_iff {i : SectionIndex} {r : Reference} (hr : r ∈ g'.referencesAt i)
    (hskip : g'.skips r = false) :
    g'.symbols.lookup r.targetName = none ↔ g.symbols.lookup r.targetName = none := by
  have howner := h.owner i r hr hskip
  rw [← ownerOf_eq_none_iff h.indexed', ← ownerOf_eq_none_iff h.indexed]
  calc g'.ownerOf r.targetName = none
      ↔ (g'.ownerOf r.targetName).map (pick ·.sectionIndex) = none := Option.map_eq_none_iff.symm
    _ ↔ (g.ownerOf r.targetName).map (·.sectionIndex) = none := by rw [howner]
    _ ↔ g.ownerOf r.targetName = none := Option.map_eq_none_iff

theorem dangles_eq {i : SectionIndex} {r : Reference} (hr : r ∈ g'.referencesAt i) :
    g'.dangles r = g.dangles r := by
  rw [Scope.dangles, Scope.dangles, ← h.skips_eq]
  cases hskip : g'.skips r with
  | true => rfl
  | false =>
    have hlookup := h.lookup_eq_none_iff hr hskip
    rw [Bool.eq_iff_iff]
    simpa using hlookup

theorem foundName?_eq {i : SectionIndex} {r : Reference} (hr : r ∈ g'.referencesAt i) :
    g'.foundName? r = g.foundName? r := by
  rw [Scope.foundName?, Scope.foundName?, h.skips_eq, h.dangles_eq hr]

/-- A reference leads to corresponding sections. -/
theorem leadsTo_iff {i k : SectionIndex} {r : Reference} (hr : r ∈ g'.referencesAt i) :
    g.LeadsTo r k ↔ ∃ j, g'.LeadsTo r j ∧ pick j = k := by
  constructor
  · rintro ⟨hskip, d, hd, rfl, -⟩
    rw [← h.skips_eq] at hskip
    have howner := h.owner i r hr hskip
    rw [hd, Option.map_some, Option.map_eq_some_iff] at howner
    obtain ⟨d', hd', hk⟩ := howner
    exact ⟨d'.sectionIndex, ⟨hskip, d', hd', rfl, h.owner_lt _ _ hd'⟩, hk⟩
  · rintro ⟨j, ⟨hskip, d', hd', rfl, hlt⟩, rfl⟩
    have howner := h.owner i r hr hskip
    rw [hd', Option.map_some, eq_comm, Option.map_eq_some_iff] at howner
    obtain ⟨d, hd, hk⟩ := howner
    exact ⟨h.skips_eq r ▸ hskip, d, hd, hk, h.pick_lt_size hlt⟩

end

theorem mem_map_pick_iff (h : Renumbers pick g' g) {visited : List SectionIndex}
    (hvisited : ∀ i ∈ visited, i < g'.sections.size) {j : SectionIndex}
    (hj : j < g'.sections.size) : pick j ∈ visited.map pick ↔ j ∈ visited := by
  rw [List.mem_map]
  constructor
  · rintro ⟨i, hi, hij⟩
    exact h.injective i (hvisited i hi) j hj hij ▸ hi
  · exact fun hj => ⟨j, hj, rfl⟩

/-- A section is free in both searches or in neither, if the same have been visited
    so far. -/
theorem isFree_eq (h : Renumbers pick g' g) {entry' : SectionIndex}
    {read' : List (SectionIndex × Reference)} {t' : Traversal} (hp' : g'.Passes entry' read' t')
    (hp : g.Passes entry read t) (hm : t.reach.sections.toList = t'.reach.sections.toList.map pick)
    {j : SectionIndex} (hj : j < g'.sections.size) :
    t.reach.sections.isFree (pick j) = t'.reach.sections.isFree j := by
  have ha' := hp'.accounted
  have ha := hp.accounted
  have hmem : pick j ∈ t.reach.sections.toList ↔ j ∈ t'.reach.sections.toList := by
    rw [hm]
    exact h.mem_map_pick_iff
      (fun i hi => (ha'.reaches i ((ha'.consistent.mem_iff i).1 hi)).lt_size) hj
  rw [Bool.eq_iff_iff, ha.consistent.isFree_iff, ha'.consistent.isFree_iff, ha.capacity,
    ha'.capacity, hmem]
  exact and_congr_left fun _ => ⟨fun _ => hj, fun _ => h.pick_lt_size hj⟩

/-- The states of two searches that correspond: the same sections have been
    visited, and the same frames wait. -/
structure Matches (pick : SectionIndex → SectionIndex) (t' t : Traversal) : Prop where
  sections : t.reach.sections.toList = t'.reach.sections.toList.map pick
  stack : t.stack = t'.stack.map (moveFrame pick)

theorem matches_start (h : Renumbers pick g' g) {entry' : SectionIndex}
    (hentry : entry' < g'.sections.size) :
    Matches pick (g'.start entry') (g.start (pick entry')) := by
  have hs := h.sections entry' hentry
  rcases start_cases g' entry' with ⟨hle, -⟩ | ⟨s', hs', h1', h2'⟩
  · exact absurd hentry (Nat.not_lt.2 hle)
  rcases start_cases g (pick entry') with ⟨hle, -⟩ | ⟨s, hs₂, h1, h2⟩
  · exact absurd (h.pick_lt_size hentry) (Nat.not_lt.2 hle)
  rw [hs, hs'] at hs₂
  cases hs₂
  constructor
  · rw [h1, h1', IndexSet.toList_insert_empty hentry,
      IndexSet.toList_insert_empty (h.pick_lt_size hentry)]
    rfl
  · rw [h2, h2']
    rfl

theorem matches_follow (h : Renumbers pick g' g) {t t' : Traversal} (hm : Matches pick t' t)
    (hfree : ∀ j < g'.sections.size,
      t.reach.sections.isFree (pick j) = t'.reach.sections.isFree j)
    {i : SectionIndex} {r : Reference} (hr : r ∈ g'.referencesAt i) :
    Matches pick (g'.follow t' i r) (g.follow t (pick i) r) := by
  rcases follow_cases (g := g') t' i r with ⟨h1', h2', hstay'⟩ | ⟨j, s', hj, hs', hfree', h1', h2'⟩
  · have hstay : ∀ k, g.LeadsTo r k → t.reach.sections.isFree k = false := by
      intro k hk
      obtain ⟨j, hj, rfl⟩ := (h.leadsTo_iff hr).1 hk
      rw [hfree j hj.lt_size]
      exact hstay' j hj
    rcases follow_cases (g := g) t (pick i) r with ⟨h1, h2, -⟩ | ⟨k, s, hk, -, hf, -⟩
    · constructor
      · rw [h1, h1', hm.sections]
      · rw [h2, h2', hm.stack]
    · exact absurd ((hstay k hk).symm.trans hf) Bool.noConfusion
  · have hlt := (Array.getElem?_eq_some_iff.1 hs').1
    have hk : g.LeadsTo r (pick j) := (h.leadsTo_iff hr).2 ⟨j, hj, rfl⟩
    have hf := (hfree j hlt).trans hfree'
    rcases follow_cases (g := g) t (pick i) r with ⟨-, -, hstay⟩ | ⟨k, s, hk₂, hs, -, h1, h2⟩
    · exact absurd ((hstay _ hk).symm.trans hf) Bool.noConfusion
    · obtain rfl : pick j = k := hk.unique hk₂
      rw [h.sections j hlt, hs'] at hs
      cases hs
      constructor
      · rw [h1, h1', IndexSet.toList_insert, IndexSet.toList_insert, if_pos hf, if_pos hfree',
          hm.sections, List.map_append]
        rfl
      · rw [h2, h2', hm.stack]
        rfl

/-- The two searches go hand in hand. -/
theorem passes (h : Renumbers pick g' g) {entry' : SectionIndex}
    (hentry : entry' < g'.sections.size) {read' : List (SectionIndex × Reference)} {t' : Traversal}
    (hp' : g'.Passes entry' read' t') :
    ∃ t, g.Passes (pick entry') (read'.map fun p => (pick p.1, p.2)) t ∧ Matches pick t' t := by
  induction hp' with
  | start => exact ⟨_, .start, h.matches_start hentry⟩
  | leave _ hn ih =>
    obtain ⟨⟨reach, stack⟩, hp, hsections, hstack⟩ := ih
    obtain rfl : stack = _ := hstack
    refine ⟨_, hp.leave ?_, hsections, rfl⟩
    rwa [← h.roles]
  | @follow read' reach' f below r cursor hp' hn ih =>
    obtain ⟨⟨reach, stack⟩, hp, hsections, hstack⟩ := ih
    obtain rfl : stack = _ := hstack
    have hm : Matches pick ⟨reach', ⟨f.sectionIndex, cursor⟩ :: below⟩
        ⟨reach, moveFrame pick ⟨f.sectionIndex, cursor⟩ :: below.map (moveFrame pick)⟩ :=
      ⟨hsections, rfl⟩
    refine ⟨_, ?_, h.matches_follow hm (fun j hj => h.isFree_eq hp' hp hsections hj)
      (hp'.accounted.mem_referencesAt hn)⟩
    rw [List.map_append]
    exact hp.follow (h.roles ▸ hn)

/-! ## The results -/

section
variable (h : Renumbers pick g' g) {entry' : SectionIndex} (hentry : entry' < g'.sections.size)
include h hentry

/-- At their ends, the two searches have visited the same sections and read the
    same references of them. -/
theorem exists_passes_reachFrom : ∃ read', g'.Passes entry' read' ⟨g'.reachFrom entry', []⟩ ∧
    g.Passes (pick entry') (read'.map fun p => (pick p.1, p.2)) ⟨g.reachFrom (pick entry'), []⟩ ∧
    (∀ p ∈ read', p.2 ∈ g'.referencesAt p.1) ∧
    (g.reachFrom (pick entry')).sections.toList =
      (g'.reachFrom entry').sections.toList.map pick := by
  obtain ⟨read', hp'⟩ := Scope.exists_passes_reachFrom g' entry'
  obtain ⟨⟨reach, stack⟩, hp, hsections, hstack⟩ := h.passes hentry hp'
  obtain rfl : stack = [] := hstack
  have hend := hp.run_eq
  rw [run] at hend
  subst hend
  exact ⟨read', hp', hp, fun p hread => (hp'.mem_read_iff.1 hread).2, hsections⟩

/-- The sections are visited in the same order. -/
theorem sections_reachFrom : (g.reachFrom (pick entry')).sections.toList =
    (g'.reachFrom entry').sections.toList.map pick := by
  obtain ⟨-, -, -, -, hsections⟩ := h.exists_passes_reachFrom hentry
  exact hsections

theorem includes_reachFrom {j : SectionIndex} (hj : j < g'.sections.size) :
    (g.reachFrom (pick entry')).includes (pick j) = (g'.reachFrom entry').includes j := by
  rw [Bool.eq_iff_iff, Reach.includes, Reach.includes, ← (consistent_reachFrom _ _).mem_iff,
    ← (consistent_reachFrom _ _).mem_iff, h.sections_reachFrom hentry]
  exact h.mem_map_pick_iff (fun i hi => lt_size_of_mem_sections hi) hj

/-- The same names are asked for in the same order. -/
theorem names_reachFrom : g.symbols.namesAt (g.reachFrom (pick entry')).symbols.toList =
    g'.symbols.namesAt (g'.reachFrom entry').symbols.toList := by
  obtain ⟨read', hp', hp, hread, -⟩ := h.exists_passes_reachFrom hentry
  rw [(hp.named h.indexed).names, (hp'.named h.indexed').names, List.filterMap_map]
  congr 1
  exact List.filterMap_congr fun p hp => (h.foundName?_eq (hread p hp)).symm

/-- The same references lead nowhere. -/
theorem dangling_reachFrom : (g.reachFrom (pick entry')).dangling.toList =
    (g'.reachFrom entry').dangling.toList.map fun d => ⟨pick d.sectionIndex, d.reference⟩ := by
  obtain ⟨read', hp', hp, hread, -⟩ := h.exists_passes_reachFrom hentry
  have hfilter : read'.filter (fun p => g.dangles p.2) = read'.filter fun p => g'.dangles p.2 :=
    List.filter_congr fun p hp => (h.dangles_eq (hread p hp)).symm
  rw [hp.dangling, hp'.dangling, List.filter_map, List.map_map, List.map_map]
  exact congrArg _ hfilter

end

end Renumbers

end Scope

end InstallerLinker
