/-
  Installer linker — no mark of a search is out of range.

  A search marks the sections that it enters and the symbols that references name, and there
  are as many marks as there are sections and symbols.  It goes through a section only if there
  is one, but it does not look whether there is a symbol before it marks it: it relies on the
  table.  Here the search stops as soon as there is no such mark, and is shown not to stop.

  * `IndexSet.put?` sets a mark if there is one, and `Scope.reachFrom?` is the search that sets
    its marks so;
  * whenever it comes to an end, it has found what the search finds (`advance?_eq_some`);
  * `Scope.Fits` is the invariant, that there are enough marks, and
    `reachFrom?_eq_some_reachFrom` the result.
-/
import InstallerLinker.Proofs.Reach.Passes
import InstallerLinker.Proofs.Reach.Renumbering

namespace InstallerLinker

/-- Set the mark of a position and tell whether it was set before; `none` if there is no mark,
    that is, beyond the capacity. -/
def IndexSet.put? (s : IndexSet) (i : Nat) : Option (Bool × IndexSet) :=
  if i < s.capacity then some (s.contains i, s.insert i) else none

namespace Scope

/-! ## The search that stops -/

/-- Take note of a reference to symbol `k`; `none` if there is no mark for it. -/
def refer? (t : Traversal) (k : SymbolIndex) : Option Traversal :=
  (t.reach.symbols.put? k).map fun p => ⟨{ t.reach with symbols := p.2 }, t.stack⟩

variable (g : Scope)

/-- Enter section `i` if there is one and it has not been visited; `none` if there is one, but
    no mark for it. -/
def visit? (t : Traversal) (i : SectionIndex) : Option Traversal :=
  match g.sections[i]? with
  | none => some t
  | some s =>
    (t.reach.sections.put? i).map fun p =>
      ⟨{ t.reach with sections := p.2 }, if p.1 then t.stack else ⟨i, s.cursor⟩ :: t.stack⟩

/-- Follow a reference that stands in section `i`; `none` if a mark is missing. -/
def follow? (t : Traversal) (i : SectionIndex) (r : Reference) : Option Traversal :=
  if g.skips r then some t
  else
    match g.symbols.lookup r.targetName with
    | none => some (dangle t i r)
    | some k =>
      match g.symbols.get? k with
      | none => refer? t k
      | some s => (refer? t k).bind fun t => g.visit? t s.owner.sectionIndex

/-- One iteration; `none` if a mark is missing. -/
def advance? (reach : Reach) (f : Frame) (below : List Frame) : Option Traversal :=
  match f.cursor.next? g.roles with
  | none => some ⟨reach, below⟩
  | some (r, cursor) => g.follow? ⟨reach, ⟨f.sectionIndex, cursor⟩ :: below⟩ f.sectionIndex r

variable {g} {t t' : Traversal}

theorem refer?_of_lt {k : SymbolIndex} (h : k < t.reach.symbols.capacity) :
    refer? t k = some (refer t k) := by
  rw [refer?, IndexSet.put?, if_pos h]
  rfl

theorem visit?_of_lt {i : SectionIndex} (h : i < t.reach.sections.capacity) :
    g.visit? t i = some (g.visit t i) := by
  obtain ⟨⟨sections, symbols, dangling⟩, stack⟩ := t
  have hfree : sections.isFree i = !sections.contains i := by
    rw [IndexSet.isFree_eq, decide_eq_true h, Bool.true_and]
  unfold visit? visit
  cases g.sections[i]? with
  | none => rfl
  | some s =>
    cases hc : sections.contains i with
    | true => simp [IndexSet.put?, h, hfree, hc, IndexSet.insert]
    | false => simp [IndexSet.put?, h, hfree, hc]

/-! ### What it finds if it does not stop -/

theorem refer?_eq_some {k : SymbolIndex} (h : refer? t k = some t') : t' = refer t k := by
  by_cases hk : k < t.reach.symbols.capacity
  · rw [refer?_of_lt hk] at h
    exact (Option.some.inj h).symm
  · rw [refer?, IndexSet.put?, if_neg hk] at h
    cases h

theorem visit?_eq_some {i : SectionIndex} (h : g.visit? t i = some t') : t' = g.visit t i := by
  by_cases hi : i < t.reach.sections.capacity
  · rw [visit?_of_lt hi] at h
    exact (Option.some.inj h).symm
  · unfold visit? at h
    unfold visit
    split at h
    · next hs =>
      rw [hs]
      exact (Option.some.inj h).symm
    · rw [IndexSet.put?, if_neg hi] at h
      cases h

theorem follow?_eq_some {i : SectionIndex} {r : Reference} (h : g.follow? t i r = some t') :
    t' = g.follow t i r := by
  unfold follow? at h
  cases hskip : g.skips r with
  | true =>
    rw [if_pos hskip] at h
    rw [follow_of_skips hskip]
    exact (Option.some.inj h).symm
  | false =>
    rw [if_neg (Bool.not_eq_true _ ▸ hskip)] at h
    cases hk : g.symbols.lookup r.targetName with
    | none =>
      rw [hk] at h
      rw [follow_of_lookup_eq_none hskip hk]
      exact (Option.some.inj h).symm
    | some k =>
      rw [hk] at h
      rw [follow_of_lookup_eq_some hskip hk]
      cases hs : g.symbols.get? k with
      | none =>
        simp only [hs] at h
        exact refer?_eq_some h
      | some s =>
        simp only [hs] at h
        obtain ⟨t₁, hrefer, hvisit⟩ := Option.bind_eq_some_iff.1 h
        rw [← refer?_eq_some hrefer]
        exact visit?_eq_some hvisit

theorem advance?_eq_some {reach : Reach} {f : Frame} {below : List Frame}
    (h : g.advance? reach f below = some t') : t' = g.advance reach f below := by
  unfold advance? at h
  unfold advance
  cases hn : f.cursor.next? g.roles with
  | none =>
    rw [hn] at h
    exact (Option.some.inj h).symm
  | some p =>
    rw [hn] at h
    exact follow?_eq_some h

variable (g)

/-- Iterate until no section is left; `none` if a mark is missing. -/
def run? (t : Traversal) : Option Reach :=
  match t with
  | ⟨reach, []⟩ => some reach
  | ⟨reach, f :: below⟩ =>
    match _h : g.advance? reach f below with
    | none => none
    | some t => run? t
termination_by g.measure t
decreasing_by
  rw [advance?_eq_some _h]
  exact g.measure_advance reach f below

/-- What can be reached from the entry; `none` if a mark is missing. -/
def reachFrom? (entry : SectionIndex) : Option Reach :=
  (g.visit? ⟨.empty g.sections.size g.symbols.size, []⟩ entry).bind g.run?

variable {g}

theorem run?_of_advance? {reach : Reach} {f : Frame} {below : List Frame}
    (h : g.advance? reach f below = some t) : g.run? ⟨reach, f :: below⟩ = g.run? t := by
  rw [run?]
  split
  · next hnone => cases hnone.symm.trans h
  · next t' hsome => rw [Option.some.inj (hsome.symm.trans h)]

/-! ## The invariant -/

/-- There is a mark for each section and each symbol. -/
structure Fits (g : Scope) (t : Traversal) : Prop where
  sections : t.reach.sections.capacity = g.sections.size
  symbols : t.reach.symbols.capacity = g.symbols.size

namespace Fits

theorem empty : g.Fits ⟨.empty g.sections.size g.symbols.size, []⟩ where
  sections := IndexSet.capacity_empty _
  symbols := IndexSet.capacity_empty _

theorem refer (h : g.Fits t) (k : SymbolIndex) : g.Fits (refer t k) where
  sections := h.sections
  symbols := (IndexSet.capacity_insert _ _).trans h.symbols

theorem visit (h : g.Fits t) (i : SectionIndex) : g.Fits (g.visit t i) := by
  rcases visit_cases (g := g) t i with ⟨he, -⟩ | ⟨s, -, -, he⟩
  · rwa [he]
  · rw [he]
    exact ⟨(IndexSet.capacity_insert _ _).trans h.sections, h.symbols⟩

theorem follow (h : g.Fits t) (i : SectionIndex) (r : Reference) : g.Fits (g.follow t i r) := by
  unfold Scope.follow
  split
  · exact h
  · split
    · exact ⟨h.sections, h.symbols⟩
    · split
      · exact h.refer _
      · exact (h.refer _).visit _

theorem advance {reach : Reach} {f : Frame} {below : List Frame}
    (h : g.Fits ⟨reach, f :: below⟩) : g.Fits (g.advance reach f below) := by
  unfold Scope.advance
  split
  · exact ⟨h.sections, h.symbols⟩
  · next r cursor _ =>
    exact follow (t := ⟨reach, ⟨f.sectionIndex, cursor⟩ :: below⟩) ⟨h.sections, h.symbols⟩ _ r

/-! ### It does not stop -/

theorem isSome_visit? (h : g.Fits t) (i : SectionIndex) : (g.visit? t i).isSome = true := by
  cases hs : g.sections[i]? with
  | none =>
    rw [Scope.visit?, hs]
    rfl
  | some s =>
    have hi : i < g.sections.size := (Array.getElem?_eq_some_iff.1 hs).1
    rw [visit?_of_lt (h.sections ▸ hi)]
    rfl

section
variable (hg : g.symbols.Indexed)
include hg

/-- A name is looked up at the position of a symbol, so that there is a mark for it. -/
theorem isSome_follow? (h : g.Fits t) (i : SectionIndex) (r : Reference) :
    (g.follow? t i r).isSome = true := by
  unfold follow?
  split
  · rfl
  · split
    · rfl
    · next k hk =>
      obtain ⟨s, hs, -⟩ := (hg _ k).1 hk
      have hlt : k < t.reach.symbols.capacity :=
        h.symbols ▸ SymbolTable.Records.get?_lt_size hs
      simp only [hs, refer?_of_lt hlt, Option.bind_some]
      exact (h.refer k).isSome_visit? _

theorem isSome_advance? {reach : Reach} {f : Frame} {below : List Frame}
    (h : g.Fits ⟨reach, f :: below⟩) : (g.advance? reach f below).isSome = true := by
  unfold advance?
  split
  · rfl
  · next r cursor _ =>
    exact isSome_follow? (t := ⟨reach, ⟨f.sectionIndex, cursor⟩ :: below⟩) hg
      ⟨h.sections, h.symbols⟩ _ r

theorem run?_eq (t : Traversal) : g.Fits t → g.run? t = some (g.run t) := by
  induction t using Scope.run.induct (g := g) with
  | case1 reach =>
    intro _
    rw [run?, run]
  | case2 reach f below ih =>
    intro h
    obtain ⟨t', ht'⟩ := Option.isSome_iff_exists.1 (h.isSome_advance? hg)
    obtain rfl := advance?_eq_some ht'
    rw [run?_of_advance? ht', run]
    exact ih h.advance

end

end Fits

/-- **No mark is missing.**  Where each name is looked up at the position of the symbol that has
    it, a search comes to its end, whatever sections there are and wherever it starts. -/
theorem reachFrom?_eq_some_reachFrom (hg : g.symbols.Indexed) (entry : SectionIndex) :
    g.reachFrom? entry = some (g.reachFrom entry) := by
  obtain ⟨t, ht⟩ := Option.isSome_iff_exists.1 (Fits.empty.isSome_visit? (g := g) entry)
  obtain rfl := visit?_eq_some ht
  rw [reachFrom?, ht, Option.bind_some, reachFrom, start]
  exact Fits.run?_eq hg _ (Fits.empty.visit entry)

/-- A product that refers to a component that nobody defines, and a table that has a name for
    it but no symbol. -/
example : (Scope.mk #[⟨"main", .product,
      [⟨.crossReferences TableRoles.standardCrossReferenceTable,
        [⟨[.string "Component", .string "x"], .unknown⟩]⟩], .unknown⟩]
    ⟨#[], .ofList [("Component:x", 0)], #[]⟩ .standard false).reachFrom? 0 = none := by
  decide +kernel

end Scope

end InstallerLinker
