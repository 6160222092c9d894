/-
  Installer linker — the states that a search passes through.

  A search keeps no record of what it has read, but all that it finds depends on
  that record.  `Scope.Passes` adds it: `g.Passes entry read t` says that the
  search from `entry` is in state `t` when it has read the references in `read`,
  each with its section.  The induction over it is the one over all iterations.

  * `step_of_next?_eq_none` and `step_of_next?_eq_some` are the two kinds of
    iterations: a section is left, or a reference is followed;
  * `follow_cases` says what the latter can do to the sections and to the
    stack, `dangling_follow` and `symbols_follow` what it does to the dangling
    references and to the symbols;
  * `Accounted.account` is the invariant on the references: what has been read
    of a visited section and what its frame has still to read make up the
    section;
  * `exists_passes_reachFrom`: the search ends, in a state without frames, so that
    it has read exactly the references of the sections visited (`mem_read_iff`).
-/
import InstallerLinker.Proofs.Arrivals
import InstallerLinker.Proofs.Reach.Hops

namespace InstallerLinker.Scope

variable {g : Scope}

/-! ## One iteration -/

section
variable {reach : Reach} {f : Frame} {below : List Frame}

/-- A section of which nothing is left to be read is left. -/
theorem step_of_next?_eq_none (hn : f.cursor.next? g.roles = none) :
    g.step ⟨reach, f :: below⟩ = some ⟨reach, below⟩ := by
  simp only [step, advance, hn]

theorem step_of_next?_eq_some {r : Reference} {cursor : ReferenceCursor}
    (hn : f.cursor.next? g.roles = some (r, cursor)) :
    g.step ⟨reach, f :: below⟩ =
      some (g.follow ⟨reach, ⟨f.sectionIndex, cursor⟩ :: below⟩ f.sectionIndex r) := by
  simp only [step, advance, hn]

end

theorem follow_of_skips {r : Reference} (h : g.skips r = true) (t : Traversal) (i : SectionIndex) :
    g.follow t i r = t := by
  simp [follow, h]

theorem follow_of_lookup_eq_none {r : Reference} (h : g.skips r = false)
    (hk : g.symbols.lookup r.targetName = none) (t : Traversal) (i : SectionIndex) :
    g.follow t i r = dangle t i r := by
  simp [follow, h, hk]

theorem follow_of_lookup_eq_some {r : Reference} {k : SymbolIndex} (h : g.skips r = false)
    (hk : g.symbols.lookup r.targetName = some k) (t : Traversal) (i : SectionIndex) :
    g.follow t i r = match g.symbols.get? k with
      | none => refer t k
      | some s => g.visit (refer t k) s.owner.sectionIndex := by
  simp only [follow, h, hk]
  rfl

theorem visit_cases (t : Traversal) (j : SectionIndex) :
    (g.visit t j = t ∧ (j < g.sections.size → t.reach.sections.isFree j = false)) ∨
      ∃ s, g.sections[j]? = some s ∧ t.reach.sections.isFree j = true ∧
        g.visit t j =
          ⟨{ t.reach with sections := t.reach.sections.insert j }, ⟨j, s.cursor⟩ :: t.stack⟩ := by
  obtain ⟨⟨sections, symbols, dangling⟩, stack⟩ := t
  cases hs : g.sections[j]? with
  | none =>
    refine Or.inl ⟨by simp only [visit, hs], fun hj => ?_⟩
    exact absurd hj (Nat.not_lt.2 (Array.getElem?_eq_none_iff.1 hs))
  | some s =>
    cases hf : sections.isFree j with
    | false => exact Or.inl ⟨by simp [visit, hs, hf], fun _ => rfl⟩
    | true => exact Or.inr ⟨s, rfl, rfl, by simp [visit, hs, hf]⟩

/-- A reference makes the search enter the section that it leads to, unless that
    has been visited; it changes neither the sections nor the stack otherwise. -/
theorem follow_cases (t : Traversal) (i : SectionIndex) (r : Reference) :
    ((g.follow t i r).reach.sections = t.reach.sections ∧ (g.follow t i r).stack = t.stack ∧
        ∀ j, g.LeadsTo r j → t.reach.sections.isFree j = false) ∨
      ∃ j s, g.LeadsTo r j ∧ g.sections[j]? = some s ∧ t.reach.sections.isFree j = true ∧
        (g.follow t i r).reach.sections = t.reach.sections.insert j ∧
        (g.follow t i r).stack = ⟨j, s.cursor⟩ :: t.stack := by
  cases hskip : g.skips r with
  | true =>
    rw [follow_of_skips hskip]
    exact Or.inl ⟨rfl, rfl, fun j hj => absurd (hskip.symm.trans hj.1) Bool.noConfusion⟩
  | false =>
    cases hk : g.symbols.lookup r.targetName with
    | none =>
      rw [follow_of_lookup_eq_none hskip hk]
      refine Or.inl ⟨rfl, rfl, fun j hj => ?_⟩
      obtain ⟨-, d, hd, -⟩ := hj
      simp [ownerOf, SymbolTable.find?, hk] at hd
    | some k =>
      have howner : g.ownerOf r.targetName = (g.symbols.get? k).map (·.owner) := by
        simp [ownerOf, SymbolTable.find?, hk]
      rw [follow_of_lookup_eq_some hskip hk]
      cases hs : g.symbols.get? k with
      | none =>
        refine Or.inl ⟨rfl, rfl, fun j hj => ?_⟩
        obtain ⟨-, d, hd, -⟩ := hj
        simp [howner, hs] at hd
      | some s =>
        have hd : g.ownerOf r.targetName = some s.owner := by rw [howner, hs]; rfl
        rcases visit_cases (g := g) (refer t k) s.owner.sectionIndex with
          ⟨h, hfree⟩ | ⟨s', hs', hfree, h⟩
        · refine Or.inl ⟨congrArg (·.reach.sections) h, congrArg (·.stack) h, fun j hj => ?_⟩
          obtain ⟨-, d, hd', rfl, hlt⟩ := hj
          rw [hd] at hd'
          cases hd'
          exact hfree hlt
        · refine Or.inr ⟨_, s', ⟨hskip, _, hd, rfl, ?_⟩, hs', hfree,
            congrArg (·.reach.sections) h, congrArg (·.stack) h⟩
          exact (Array.getElem?_eq_some_iff.1 hs').1

/-- The reference is not passed over, and leads nowhere. -/
def dangles (g : Scope) (r : Reference) : Bool :=
  !g.skips r && (g.symbols.lookup r.targetName).isNone

@[simp] theorem dangling_visit (t : Traversal) (j : SectionIndex) :
    (g.visit t j).reach.dangling = t.reach.dangling := by
  rcases visit_cases (g := g) t j with ⟨h, -⟩ | ⟨s, -, -, h⟩ <;> rw [h]

theorem dangling_follow (t : Traversal) (i : SectionIndex) (r : Reference) :
    (g.follow t i r).reach.dangling.toList =
      t.reach.dangling.toList ++ if g.dangles r then [⟨i, r⟩] else [] := by
  cases hskip : g.skips r with
  | true => simp [follow_of_skips hskip, dangles, hskip]
  | false =>
    cases hk : g.symbols.lookup r.targetName with
    | none => simp [follow_of_lookup_eq_none hskip hk, dangles, hskip, hk, dangle]
    | some k =>
      rw [follow_of_lookup_eq_some hskip hk]
      cases g.symbols.get? k <;> simp [dangles, hskip, hk, refer]

/-- The symbol that a reference asks for, unless it is passed over or leads nowhere. -/
def askedSymbol? (g : Scope) (r : Reference) : Option SymbolIndex :=
  if g.skips r then none else g.symbols.lookup r.targetName

@[simp] theorem symbols_visit (t : Traversal) (j : SectionIndex) :
    (g.visit t j).reach.symbols = t.reach.symbols := by
  rcases visit_cases (g := g) t j with ⟨h, -⟩ | ⟨s, -, -, h⟩ <;> rw [h]

/-- A reference makes the search take note of the symbol that it asks for. -/
theorem symbols_follow (t : Traversal) (i : SectionIndex) (r : Reference) :
    (g.follow t i r).reach.symbols =
      match g.askedSymbol? r with
      | none => t.reach.symbols
      | some k => t.reach.symbols.insert k := by
  cases hskip : g.skips r with
  | true => simp [follow_of_skips hskip, askedSymbol?, hskip]
  | false =>
    cases hk : g.symbols.lookup r.targetName with
    | none => simp [follow_of_lookup_eq_none hskip hk, askedSymbol?, hskip, hk, dangle]
    | some k =>
      rw [follow_of_lookup_eq_some hskip hk]
      cases g.symbols.get? k <;> simp [askedSymbol?, hskip, hk, refer]

/-! ## All iterations -/

/-- The search from `entry` passes through state `t` when it has read the
    references in `read`. -/
inductive Passes (g : Scope) (entry : SectionIndex) :
    List (SectionIndex × Reference) → Traversal → Prop where
  | start : Passes g entry [] (g.start entry)
  | leave {read : List (SectionIndex × Reference)} {reach : Reach} {f : Frame} {below : List Frame} :
      Passes g entry read ⟨reach, f :: below⟩ → f.cursor.next? g.roles = none →
      Passes g entry read ⟨reach, below⟩
  | follow {read : List (SectionIndex × Reference)} {reach : Reach} {f : Frame} {below : List Frame}
      {r : Reference} {cursor : ReferenceCursor} :
      Passes g entry read ⟨reach, f :: below⟩ → f.cursor.next? g.roles = some (r, cursor) →
      Passes g entry (read ++ [(f.sectionIndex, r)])
        (g.follow ⟨reach, ⟨f.sectionIndex, cursor⟩ :: below⟩ f.sectionIndex r)

theorem exists_passes_run {entry : SectionIndex} (t : Traversal) :
    ∀ read, g.Passes entry read t → ∃ read', g.Passes entry read' ⟨g.run t, []⟩ := by
  induction t using Scope.run.induct (g := g) with
  | case1 reach =>
    intro read h
    rw [run]
    exact ⟨read, h⟩
  | case2 reach f below ih =>
    intro read h
    rw [run]
    cases hn : f.cursor.next? g.roles with
    | none =>
      refine ih read ?_
      simp only [advance, hn]
      exact .leave h hn
    | some p =>
      refine ih (read ++ [(f.sectionIndex, p.1)]) ?_
      simp only [advance, hn]
      exact .follow h hn

/-- The search ends. -/
theorem exists_passes_reachFrom (g : Scope) (entry : SectionIndex) :
    ∃ read, g.Passes entry read ⟨g.reachFrom entry, []⟩ :=
  exists_passes_run _ [] .start

/-- All states that a search passes through come to the same end. -/
theorem Passes.run_eq {entry : SectionIndex} {read : List (SectionIndex × Reference)}
    {t : Traversal} (h : g.Passes entry read t) : g.run t = g.reachFrom entry := by
  induction h with
  | start => rfl
  | leave _ hn ih => rw [← ih, g.run_of_step_eq_some (step_of_next?_eq_none hn)]
  | follow _ hn ih => rw [← ih, g.run_of_step_eq_some (step_of_next?_eq_some hn)]

/-! ## The references read -/

/-- The references of section `i` among those read. -/
def readAt (read : List (SectionIndex × Reference)) (i : SectionIndex) : List Reference :=
  (read.filter (·.1 = i)).map (·.2)

/-- The references of section `i` that the frames on a stack have still to read. -/
def unread (g : Scope) (stack : List Frame) (i : SectionIndex) : List Reference :=
  (stack.filter (·.sectionIndex = i)).flatMap (·.cursor.toList g.roles)

theorem mem_readAt_iff {read : List (SectionIndex × Reference)} {i : SectionIndex} {r : Reference} :
    r ∈ readAt read i ↔ (i, r) ∈ read := by
  simp [readAt]

theorem readAt_append_self (read : List (SectionIndex × Reference)) (i : SectionIndex)
    (r : Reference) : readAt (read ++ [(i, r)]) i = readAt read i ++ [r] := by
  simp [readAt]

/-- Reading on in one section changes nothing of what has been read of another. -/
theorem readAt_append_of_ne (read : List (SectionIndex × Reference)) {i j : SectionIndex}
    (h : i ≠ j) (r : Reference) : readAt (read ++ [(i, r)]) j = readAt read j := by
  simp [readAt, h]

theorem unread_cons (f : Frame) (stack : List Frame) (i : SectionIndex) :
    g.unread (f :: stack) i =
      (if f.sectionIndex = i then f.cursor.toList g.roles else []) ++ g.unread stack i := by
  by_cases h : f.sectionIndex = i <;> simp [unread, h]

/-- What holds of the sections visited and of the frames between two iterations:
    the stack holds what has not been read of the sections visited. -/
structure Accounted (g : Scope) (entry : SectionIndex) (read : List (SectionIndex × Reference))
    (sections : IndexSet) (stack : List Frame) : Prop where
  consistent : sections.Consistent
  capacity : sections.capacity = g.sections.size
  reaches : ∀ i, sections.contains i = true → g.graph.Reaches entry i
  onStack : ∀ f ∈ stack, sections.contains f.sectionIndex = true
  account : ∀ i, readAt read i ++ g.unread stack i =
    if sections.contains i then g.referencesAt i else []

namespace Accounted
variable {entry : SectionIndex} {read : List (SectionIndex × Reference)} {sections : IndexSet}
  {stack : List Frame}

theorem empty (g : Scope) (entry : SectionIndex) :
    g.Accounted entry [] (.empty g.sections.size) [] where
  consistent := IndexSet.consistent_empty _
  capacity := IndexSet.capacity_empty _
  reaches := by simp
  onStack := by simp
  account := by simp [readAt, unread]

/-- Nothing has been read of a section that has not been visited. -/
theorem readAt_append_unread_eq_nil (h : g.Accounted entry read sections stack) {i : SectionIndex}
    (hi : sections.isFree i = true) : readAt read i ++ g.unread stack i = [] := by
  rw [h.account, if_neg]
  simp [((IndexSet.isFree_eq_true_iff i).1 hi).2]

theorem enter (h : g.Accounted entry read sections stack) {j : SectionIndex} {s : Section}
    (hs : g.sections[j]? = some s) (hfree : sections.isFree j = true)
    (hreach : g.graph.Reaches entry j) :
    g.Accounted entry read (sections.insert j) (⟨j, s.cursor⟩ :: stack) where
  consistent := h.consistent.insert j
  capacity := (IndexSet.capacity_insert _ _).trans h.capacity
  reaches i hi := by
    rcases (IndexSet.contains_insert_iff j i).1 hi with hi | ⟨rfl, -⟩
    · exact h.reaches i hi
    · exact hreach
  onStack f hf := by
    rcases List.mem_cons.1 hf with rfl | hf
    · exact (IndexSet.contains_insert_iff _ _).2
        (Or.inr ⟨rfl, ((IndexSet.isFree_eq_true_iff _).1 hfree).1⟩)
    · exact IndexSet.contains_insert_of_contains j (h.onStack f hf)
  account i := by
    rw [unread_cons]
    by_cases hij : j = i
    · subst hij
      obtain ⟨hread, hstack⟩ := List.append_eq_nil_iff.1 (h.readAt_append_unread_eq_nil hfree)
      have hc : (sections.insert j).contains j = true :=
        (IndexSet.contains_insert_iff _ _).2
          (Or.inr ⟨rfl, ((IndexSet.isFree_eq_true_iff _).1 hfree).1⟩)
      rw [hread, hstack, hc, if_pos rfl, if_pos rfl, referencesAt, hs]
      simp
    · have hc : (sections.insert j).contains i = sections.contains i := by
        rw [IndexSet.contains_insert]
        simp [Ne.symm hij]
      rw [if_neg hij, hc]
      exact h.account i

theorem leave {f : Frame} (h : g.Accounted entry read sections (f :: stack))
    (hn : f.cursor.next? g.roles = none) : g.Accounted entry read sections stack where
  consistent := h.consistent
  capacity := h.capacity
  reaches := h.reaches
  onStack f' hf := h.onStack f' (List.mem_cons_of_mem _ hf)
  account i := by
    have hi := h.account i
    rwa [unread_cons, ReferenceCursor.toList_of_next?_eq_none hn, ite_self, List.nil_append] at hi

/-- The reference that is read next belongs to the section on top of the stack. -/
theorem mem_referencesAt {f : Frame} {r : Reference} {cursor : ReferenceCursor}
    (h : g.Accounted entry read sections (f :: stack))
    (hn : f.cursor.next? g.roles = some (r, cursor)) : r ∈ g.referencesAt f.sectionIndex := by
  have hi := h.account f.sectionIndex
  rw [unread_cons, if_pos rfl, ReferenceCursor.toList_of_next?_eq_some hn,
    h.onStack f (List.mem_cons_self ..), if_pos rfl] at hi
  rw [← hi]
  simp

theorem next {f : Frame} {r : Reference} {cursor : ReferenceCursor}
    (h : g.Accounted entry read sections (f :: stack))
    (hn : f.cursor.next? g.roles = some (r, cursor)) :
    g.Accounted entry (read ++ [(f.sectionIndex, r)]) sections (⟨f.sectionIndex, cursor⟩ :: stack)
      where
  consistent := h.consistent
  capacity := h.capacity
  reaches := h.reaches
  onStack f' hf := by
    rcases List.mem_cons.1 hf with rfl | hf
    · exact h.onStack f (List.mem_cons_self ..)
    · exact h.onStack f' (List.mem_cons_of_mem _ hf)
  account i := by
    have hi := h.account i
    rw [unread_cons, ReferenceCursor.toList_of_next?_eq_some hn] at hi
    rw [unread_cons]
    by_cases hf : f.sectionIndex = i
    · subst hf
      rw [readAt_append_self]
      simpa using hi
    · rw [readAt_append_of_ne _ hf]
      simpa [hf] using hi

end Accounted

variable {entry : SectionIndex} {read : List (SectionIndex × Reference)} {t : Traversal}

theorem start_cases (g : Scope) (entry : SectionIndex) :
    (g.sections.size ≤ entry ∧
        g.start entry = ⟨.empty g.sections.size g.symbols.size, []⟩) ∨
      ∃ s, g.sections[entry]? = some s ∧
        (g.start entry).reach.sections = (IndexSet.empty g.sections.size).insert entry ∧
        (g.start entry).stack = [⟨entry, s.cursor⟩] := by
  rcases visit_cases (g := g) ⟨.empty g.sections.size g.symbols.size, []⟩ entry with
    ⟨h, hfree⟩ | ⟨s, hs, -, h⟩
  · refine Or.inl ⟨Nat.le_of_not_lt fun hlt => ?_, h⟩
    have := (IndexSet.isFree_eq_true_iff (s := .empty g.sections.size) entry).2 (by simpa using hlt)
    exact absurd (this.symm.trans (hfree hlt)) Bool.noConfusion
  · exact Or.inr ⟨s, hs, congrArg (·.reach.sections) h, congrArg (·.stack) h⟩

theorem Passes.accounted (h : g.Passes entry read t) :
    g.Accounted entry read t.reach.sections t.stack := by
  induction h with
  | start =>
    rcases start_cases g entry with ⟨-, h⟩ | ⟨s, hs, h1, h2⟩
    · rw [h]
      exact .empty g entry
    · rw [h1, h2]
      have hlt := (Array.getElem?_eq_some_iff.1 hs).1
      refine (Accounted.empty g entry).enter hs ?_ ⟨hlt, .refl⟩
      exact (IndexSet.isFree_eq_true_iff _).2 (by simpa using hlt)
  | leave _ hn ih => exact ih.leave hn
  | @follow read reach f below r cursor _ hn ih =>
    rcases follow_cases (g := g) ⟨reach, ⟨f.sectionIndex, cursor⟩ :: below⟩ f.sectionIndex r with
      ⟨h1, h2, -⟩ | ⟨j, s, hj, hs, hfree, h1, h2⟩
    · rw [h1, h2]
      exact ih.next hn
    · rw [h1, h2]
      have hop : g.graph.Hop f.sectionIndex j := hop_iff.2 ⟨r, ih.mem_referencesAt hn, hj⟩
      exact (ih.next hn).enter hs hfree
        ((ih.reaches _ (ih.onStack f (List.mem_cons_self ..))).tail hop)

/-! ## What comes of the references read -/

theorem toList_prefix_follow (t : Traversal) (i : SectionIndex) (r : Reference) :
    t.reach.sections.toList <+: (g.follow t i r).reach.sections.toList := by
  rcases follow_cases (g := g) t i r with ⟨h, -, -⟩ | ⟨j, s, -, -, -, h, -⟩
  · exact h ▸ List.prefix_rfl
  · rw [h]
    exact IndexSet.toList_prefix_insert _ _

/-- The sections are listed in the order of their visits, from the entry on. -/
theorem Passes.start_prefix (h : g.Passes entry read t) :
    (g.start entry).reach.sections.toList <+: t.reach.sections.toList := by
  induction h with
  | start => exact List.prefix_rfl
  | leave _ _ ih => exact ih
  | @follow read reach f below r cursor _ _ ih =>
    exact ih.trans (toList_prefix_follow ⟨reach, ⟨f.sectionIndex, cursor⟩ :: below⟩ _ _)

/-- Whatever a reference that has been read leads to has been visited. -/
theorem Passes.contains_of_leadsTo (h : g.Passes entry read t) {i j : SectionIndex} {r : Reference}
    (hr : (i, r) ∈ read) (hj : g.LeadsTo r j) : t.reach.sections.contains j = true := by
  induction h with
  | start => exact absurd hr List.not_mem_nil
  | leave _ _ ih => exact ih hr
  | @follow read reach f below r' cursor hp hn ih =>
    have hcap : j < reach.sections.capacity := hp.accounted.capacity ▸ hj.lt_size
    rcases follow_cases (g := g) ⟨reach, ⟨f.sectionIndex, cursor⟩ :: below⟩ f.sectionIndex r' with
      ⟨h1, -, hfree⟩ | ⟨k, s, hk, -, -, h1, -⟩
    · rw [h1]
      rcases List.mem_append.1 hr with hr | hr
      · exact ih hr
      · cases List.mem_singleton.1 hr
        exact IndexSet.contains_of_not_isFree hcap (hfree j hj)
    · rw [h1]
      rcases List.mem_append.1 hr with hr | hr
      · exact IndexSet.contains_insert_of_contains k (ih hr)
      · cases List.mem_singleton.1 hr
        obtain rfl := hj.unique hk
        exact (IndexSet.contains_insert_iff _ _).2 (Or.inr ⟨rfl, hcap⟩)

/-- The dangling references are found in the order in which they are read. -/
theorem Passes.dangling (h : g.Passes entry read t) :
    t.reach.dangling.toList =
      (read.filter fun p => g.dangles p.2).map fun p => ⟨p.1, p.2⟩ := by
  induction h with
  | start =>
    rw [Scope.start, dangling_visit]
    rfl
  | leave _ _ ih => exact ih
  | @follow read reach f below r cursor _ _ ih =>
    rw [dangling_follow, show reach.dangling.toList = _ from ih]
    cases hd : g.dangles r <;> simp [hd]

/-- At the end, the references read of a section visited are all of it, once each. -/
theorem Passes.readAt_eq {reach : Reach} (h : g.Passes entry read ⟨reach, []⟩) (i : SectionIndex) :
    readAt read i = if reach.includes i then g.referencesAt i else [] := by
  have hi := h.accounted.account i
  rwa [show g.unread [] i = [] from rfl, List.append_nil] at hi

/-- At the end, the references read are those of the sections visited. -/
theorem Passes.mem_read_iff {reach : Reach} (h : g.Passes entry read ⟨reach, []⟩)
    {i : SectionIndex} {r : Reference} :
    (i, r) ∈ read ↔ reach.includes i = true ∧ r ∈ g.referencesAt i := by
  rw [← mem_readAt_iff, h.readAt_eq]
  cases reach.includes i <;> simp

end InstallerLinker.Scope
