/-
  Installer linker — a search with a stack visits what a recursive one does.

  The search keeps, for each section that it has entered, the references that it
  has still to follow.  A recursive search needs no such record: it goes into a
  section, follows all of its references, and comes back.  Both find the same
  sections, symbols and dangling references, in the same order.

  * `Scope.followAll` is the recursive search along the references of a section,
    and `Scope.searchFrom` the one from an entry; `Findings` is what it finds,
    as plain lists;
  * `Mirrors` says that the findings of the two searches agree, and
    `Scope.exists_run_frame` that the frame on top of a stack is worked off as
    `followAll` does it, whatever lies below;
  * `Scope.reachFrom_eq_searchFrom` is the result.
-/
import Mathlib.Data.Finset.Card
import InstallerLinker.Proofs.Reach.Passes
import InstallerLinker.Proofs.Symbols

namespace InstallerLinker

/-! ## The recursive search -/

/-- What a recursive search finds, each list in the order in which it came up. -/
structure Findings where
  /-- The sections visited. -/
  sections : List SectionIndex
  /-- The symbols referred to. -/
  symbols : List SymbolIndex
  /-- The references that lead nowhere. -/
  dangling : List DanglingReference
  deriving DecidableEq

namespace Findings
variable (f : Findings)

/-- Nothing found. -/
def empty : Findings := ⟨[], [], []⟩

/-- Mark section `i` as visited. -/
def visit (i : SectionIndex) : Findings := { f with sections := f.sections ++ [i] }

/-- Take note of a reference to symbol `k`, if it is the first. -/
def refer (k : SymbolIndex) : Findings :=
  { f with symbols := if k ∈ f.symbols then f.symbols else f.symbols ++ [k] }

/-- Take note of a reference in section `i` that leads nowhere. -/
def dangle (i : SectionIndex) (r : Reference) : Findings :=
  { f with dangling := f.dangling ++ [⟨i, r⟩] }

/-- What can be found from `f` on: the sections visited stay so. -/
abbrev Later : Type := { f' : Findings // f.sections <+: f'.sections }

end Findings

namespace Scope
variable (g : Scope)

/-- The sections that have not been visited. -/
def unvisited (f : Findings) : Finset SectionIndex :=
  Finset.range g.sections.size \ f.sections.toFinset

theorem card_unvisited_le {f f' : Findings} (h : f.sections <+: f'.sections) :
    (g.unvisited f').card ≤ (g.unvisited f).card := by
  refine Finset.card_le_card (Finset.sdiff_subset_sdiff subset_rfl fun i hi => ?_)
  exact List.mem_toFinset.2 (h.subset (List.mem_toFinset.1 hi))

theorem card_unvisited_visit_lt {f : Findings} {i : SectionIndex} (hi : i < g.sections.size)
    (hnew : i ∉ f.sections) : (g.unvisited (f.visit i)).card < (g.unvisited f).card := by
  refine Finset.card_lt_card ⟨Finset.sdiff_subset_sdiff subset_rfl fun j hj => ?_, fun hsub => ?_⟩
  · exact List.mem_toFinset.2 (List.mem_append_left _ (List.mem_toFinset.1 hj))
  · have hmem : i ∈ g.unvisited f :=
      Finset.mem_sdiff.2 ⟨Finset.mem_range.2 hi, fun h => hnew (List.mem_toFinset.1 h)⟩
    refine (Finset.mem_sdiff.1 (hsub hmem)).2 (List.mem_toFinset.2 ?_)
    exact List.mem_append_right _ (List.mem_singleton_self i)

/-- Follow the references `rs` of section `i`, one after the other.  A reference to
    a section that has not been visited leads into that section, whose references
    are all followed before the next one of section `i`. -/
def followAll (f : Findings) (i : SectionIndex) : List Reference → f.Later
  | [] => ⟨f, List.prefix_rfl⟩
  | r :: rs =>
    if g.skips r then followAll f i rs
    else
      match g.symbols.lookup r.targetName with
      | none => followAll (f.dangle i r) i rs
      | some k =>
        match g.symbols.get? k with
        | none => followAll f i rs
        | some s =>
          if _hnew : s.owner.sectionIndex < g.sections.size ∧ s.owner.sectionIndex ∉ f.sections then
            match followAll ((f.refer k).visit s.owner.sectionIndex) s.owner.sectionIndex
                (g.referencesAt s.owner.sectionIndex) with
            | ⟨inner, hinner⟩ =>
              match followAll inner i rs with
              | ⟨outer, houter⟩ => ⟨outer, (List.prefix_append _ _).trans (hinner.trans houter)⟩
          else followAll (f.refer k) i rs
termination_by rs => ((g.unvisited f).card, rs.length)
decreasing_by
  · exact Prod.Lex.right _ (Nat.lt_succ_self _)
  · exact Prod.Lex.right _ (Nat.lt_succ_self _)
  · exact Prod.Lex.right _ (Nat.lt_succ_self _)
  · exact Prod.Lex.left _ _ (g.card_unvisited_visit_lt (f := f.refer k) _hnew.1 _hnew.2)
  · refine Prod.Lex.left _ _ (Nat.lt_of_le_of_lt (g.card_unvisited_le hinner) ?_)
    exact g.card_unvisited_visit_lt (f := f.refer k) _hnew.1 _hnew.2
  · exact Prod.Lex.right _ (Nat.lt_succ_self _)

/-- Visit section `i`: mark it and follow its references. -/
def visitAll (f : Findings) (i : SectionIndex) : Findings :=
  (g.followAll (f.visit i) i (g.referencesAt i)).1

/-- Search recursively from the entry, if there is such a section. -/
def searchFrom (entry : SectionIndex) : Findings :=
  if entry < g.sections.size then g.visitAll .empty entry else .empty

/-! ## The two searches agree -/

/-- The two searches have found the same. -/
structure Mirrors (reach : Reach) (f : Findings) : Prop where
  sections : reach.sections.toList = f.sections
  symbols : reach.symbols.toList = f.symbols
  dangling : reach.dangling.toList = f.dangling
  consistent_sections : reach.sections.Consistent
  consistent_symbols : reach.symbols.Consistent
  capacity_sections : reach.sections.capacity = g.sections.size
  capacity_symbols : reach.symbols.capacity = g.symbols.size

variable {g} {reach : Reach} {f : Findings}

namespace Mirrors

theorem empty (g : Scope) : g.Mirrors (.empty g.sections.size g.symbols.size) .empty where
  sections := rfl
  symbols := rfl
  dangling := rfl
  consistent_sections := IndexSet.consistent_empty _
  consistent_symbols := IndexSet.consistent_empty _
  capacity_sections := IndexSet.capacity_empty _
  capacity_symbols := IndexSet.capacity_empty _

theorem isFree_iff (h : g.Mirrors reach f) {j : SectionIndex} :
    reach.sections.isFree j = true ↔ j < g.sections.size ∧ j ∉ f.sections := by
  rw [h.consistent_sections.isFree_iff, h.capacity_sections, h.sections]

theorem visit (h : g.Mirrors reach f) {j : SectionIndex} (hfree : reach.sections.isFree j = true) :
    g.Mirrors { reach with sections := reach.sections.insert j } (f.visit j) where
  sections := by rw [IndexSet.toList_insert, if_pos hfree, h.sections]; rfl
  symbols := h.symbols
  dangling := h.dangling
  consistent_sections := h.consistent_sections.insert j
  consistent_symbols := h.consistent_symbols
  capacity_sections := (IndexSet.capacity_insert _ _).trans h.capacity_sections
  capacity_symbols := h.capacity_symbols

theorem refer (h : g.Mirrors reach f) {k : SymbolIndex} (hk : k < g.symbols.size) :
    g.Mirrors { reach with symbols := reach.symbols.insert k } (f.refer k) where
  sections := h.sections
  symbols := by
    have hfree : reach.symbols.isFree k = true ↔ k ∉ f.symbols := by
      rw [h.consistent_symbols.isFree_iff, h.capacity_symbols, h.symbols, and_iff_right hk]
    rw [IndexSet.toList_insert, h.symbols, Findings.refer]
    by_cases hmem : k ∈ f.symbols
    · rw [if_pos hmem, if_neg fun hk => hfree.1 hk hmem]
    · rw [if_neg hmem, if_pos (hfree.2 hmem)]
  dangling := h.dangling
  consistent_sections := h.consistent_sections
  consistent_symbols := h.consistent_symbols.insert k
  capacity_sections := h.capacity_sections
  capacity_symbols := (IndexSet.capacity_insert _ _).trans h.capacity_symbols

/-- A symbol that the table does not have is not taken note of. -/
theorem refer_of_size_le (h : g.Mirrors reach f) {k : SymbolIndex} (hk : g.symbols.size ≤ k) :
    { reach with symbols := reach.symbols.insert k } = reach := by
  rw [IndexSet.insert_of_not_isFree]
  rw [← Bool.not_eq_true, IndexSet.isFree_eq_true_iff, h.capacity_symbols]
  exact fun hlt => Nat.not_lt.2 hk hlt.1

theorem dangle (h : g.Mirrors reach f) (i : SectionIndex) (r : Reference) :
    g.Mirrors { reach with dangling := reach.dangling.push ⟨i, r⟩ } (f.dangle i r) where
  sections := h.sections
  symbols := h.symbols
  dangling := by rw [Array.toList_push, h.dangling]; rfl
  consistent_sections := h.consistent_sections
  consistent_symbols := h.consistent_symbols
  capacity_sections := h.capacity_sections
  capacity_symbols := h.capacity_symbols

end Mirrors

/-! ## Working off a frame -/

theorem follow_of_get?_eq_some {r : Reference} {k : SymbolIndex} {s : Symbol}
    (hskip : g.skips r = false) (hk : g.symbols.lookup r.targetName = some k)
    (hs : g.symbols.get? k = some s) (t : Traversal) (i : SectionIndex) :
    g.follow t i r = g.visit (Scope.refer t k) s.owner.sectionIndex := by
  rw [follow_of_lookup_eq_some hskip hk, hs]

theorem run_of_toList_eq_nil {i : SectionIndex} {c : ReferenceCursor} {below : List Frame}
    (hc : c.toList g.roles = []) : g.run ⟨reach, ⟨i, c⟩ :: below⟩ = g.run ⟨reach, below⟩ := by
  have hn : c.next? g.roles = none := by
    cases hn : c.next? g.roles with
    | none => rfl
    | some p =>
      rw [ReferenceCursor.toList_of_next?_eq_some hn] at hc
      cases hc
  rw [run, advance, hn]

theorem exists_run_of_toList_eq_cons {i : SectionIndex} {c : ReferenceCursor} {r : Reference}
    {rs : List Reference} (hc : c.toList g.roles = r :: rs) (reach : Reach) (below : List Frame) :
    ∃ c', c'.toList g.roles = rs ∧ g.run ⟨reach, ⟨i, c⟩ :: below⟩ =
      g.run (g.follow ⟨reach, ⟨i, c'⟩ :: below⟩ i r) := by
  cases hn : c.next? g.roles with
  | none =>
    rw [ReferenceCursor.toList_of_next?_eq_none hn] at hc
    cases hc
  | some p =>
    rw [ReferenceCursor.toList_of_next?_eq_some hn] at hc
    obtain ⟨rfl, hrs⟩ := List.cons_eq_cons.1 hc
    exact ⟨p.2, hrs, by rw [run, advance, hn]⟩

/-- The frame on top of a stack is worked off as the recursive search follows its
    references, and then the search goes on with the frames below. -/
theorem exists_run_frame (f : Findings) (i : SectionIndex) (rs : List Reference) :
    ∀ (reach : Reach) (c : ReferenceCursor) (below : List Frame), g.Mirrors reach f →
      c.toList g.roles = rs → ∃ reach', g.Mirrors reach' (g.followAll f i rs).1 ∧
        g.run ⟨reach, ⟨i, c⟩ :: below⟩ = g.run ⟨reach', below⟩ := by
  fun_induction followAll g f i rs with
  | case1 f i =>
    intro reach c below h hc
    exact ⟨reach, h, run_of_toList_eq_nil hc⟩
  | case2 f i r rs hskip ih =>
    intro reach c below h hc
    obtain ⟨c', hc', hrun⟩ := exists_run_of_toList_eq_cons hc reach below
    rw [hrun, follow_of_skips hskip]
    exact ih reach c' below h hc'
  | case3 f i r rs hskip hk ih =>
    intro reach c below h hc
    obtain ⟨c', hc', hrun⟩ := exists_run_of_toList_eq_cons hc reach below
    rw [hrun, follow_of_lookup_eq_none (Bool.eq_false_iff.2 hskip) hk]
    exact ih _ c' below (h.dangle i r) hc'
  | case4 f i r rs hskip k hk hs ih =>
    intro reach c below h hc
    obtain ⟨c', hc', hrun⟩ := exists_run_of_toList_eq_cons hc reach below
    rw [hrun, follow_of_lookup_eq_some (Bool.eq_false_iff.2 hskip) hk, hs]
    dsimp only [Scope.refer]
    rw [h.refer_of_size_le (Array.getElem?_eq_none_iff.1 hs)]
    exact ih reach c' below h hc'
  | case5 f i r rs hskip k hk s hs hnew inner hinner heq outer houter heq' ihinner ihouter =>
    intro reach c below h hc
    obtain ⟨c', hc', hrun⟩ := exists_run_of_toList_eq_cons hc reach below
    rw [hrun, follow_of_get?_eq_some (Bool.eq_false_iff.2 hskip) hk hs]
    have hrefer := h.refer (SymbolTable.Records.get?_lt_size hs)
    have hfree := hrefer.isFree_iff.2 hnew
    rcases visit_cases (g := g) (refer ⟨reach, ⟨i, c'⟩ :: below⟩ k) s.owner.sectionIndex with
      ⟨-, hvisited⟩ | ⟨s', hs', -, hvisit⟩
    · exact absurd (hfree.symm.trans (hvisited hnew.1)) Bool.noConfusion
    · -- the section entered is worked off first, then the rest of this one
      have hreferences : s'.cursor.toList g.roles = g.referencesAt s.owner.sectionIndex := by
        rw [Section.toList_cursor, referencesAt, hs']
      obtain ⟨reach₁, h₁, hrun₁⟩ :=
        ihinner _ s'.cursor (⟨i, c'⟩ :: below) (hrefer.visit hfree) hreferences
      rw [heq] at h₁
      obtain ⟨reach₂, h₂, hrun₂⟩ := ihouter reach₁ c' below h₁ hc'
      rw [heq'] at h₂
      refine ⟨reach₂, h₂, ?_⟩
      rw [hvisit, ← hrun₂, ← hrun₁]
      rfl
  | case6 f i r rs hskip k hk s hs hold ih =>
    intro reach c below h hc
    obtain ⟨c', hc', hrun⟩ := exists_run_of_toList_eq_cons hc reach below
    rw [hrun, follow_of_get?_eq_some (Bool.eq_false_iff.2 hskip) hk hs]
    have hrefer := h.refer (SymbolTable.Records.get?_lt_size hs)
    rcases visit_cases (g := g) (refer ⟨reach, ⟨i, c'⟩ :: below⟩ k) s.owner.sectionIndex with
      ⟨hvisit, -⟩ | ⟨s', hs', hfree, -⟩
    · rw [hvisit]
      exact ih _ c' below hrefer hc'
    · exact absurd (hrefer.isFree_iff.1 hfree) hold

/-- **A search with a stack is a recursive search.**  From any entry, over any
    sections and symbols, the search visits the sections, refers to the symbols
    and meets the dangling references that the recursive search does, in the
    same order. -/
theorem reachFrom_eq_searchFrom (g : Scope) (entry : SectionIndex) :
    (g.reachFrom entry).sections.toList = (g.searchFrom entry).sections ∧
      (g.reachFrom entry).symbols.toList = (g.searchFrom entry).symbols ∧
      (g.reachFrom entry).dangling.toList = (g.searchFrom entry).dangling := by
  have hempty := Mirrors.empty g
  unfold reachFrom searchFrom Scope.start
  rcases visit_cases (g := g) ⟨.empty g.sections.size g.symbols.size, []⟩ entry with
    ⟨hvisit, hvisited⟩ | ⟨s, hs, hfree, hvisit⟩
  · have hout : ¬ entry < g.sections.size := fun hlt =>
      absurd ((hempty.isFree_iff.2 ⟨hlt, List.not_mem_nil⟩).symm.trans (hvisited hlt)) Bool.noConfusion
    rw [if_neg hout, hvisit, run]
    exact ⟨hempty.sections, hempty.symbols, hempty.dangling⟩
  · have hreferences : s.cursor.toList g.roles = g.referencesAt entry := by
      rw [Section.toList_cursor, referencesAt, hs]
    obtain ⟨reach, h, hrun⟩ :=
      exists_run_frame _ entry _ _ s.cursor [] (hempty.visit hfree) hreferences
    rw [if_pos (hempty.isFree_iff.1 hfree).1, hvisit, hrun, run]
    exact ⟨h.sections, h.symbols, h.dangling⟩

end Scope

end InstallerLinker
