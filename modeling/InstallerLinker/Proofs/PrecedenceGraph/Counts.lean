/-
  Installer linker — the counts while the order of a graph is built.

  Placing an id takes several changes: it leaves those that are ready, and each id
  that must come after it is released in turn.  Between any two of them the counts are
  exact, up to one for each id that has not been released yet.

  * `SortMoment` is a sort between two changes, with a record of what has become
    ready, and `SortMoment.next?` makes the next change; `momentAfter` counts changes,
    and `exists_momentAfter_eq` says that they make up the sort;
  * `Sorting` is the invariant, and `Sorting.next?` its step;
  * `Tallied` says of a moment what the counts and the ready ids have to do with the
    ids placed, and `tallied_run` that every sort of any graph keeps it.
-/
import InstallerLinker.Proofs.PrecedenceGraph.History
import InstallerLinker.Proofs.PrecedenceGraph.Sorting

namespace InstallerLinker

/-! ## One change after the other -/

/-- A sort between two changes. -/
structure SortMoment where
  sorter : Sorter
  /-- What must come after the position placed last and has not been released since. -/
  unreleased : List Nat
  /-- The positions that have become ready so far, in the order in which they did. -/
  entered : List Nat
  deriving DecidableEq

namespace PrecedenceGraph

variable (g : PrecedenceGraph)

/-- The next change: release a position if one is left to be released, else place the
    first of those that are ready; `none` if there is neither. -/
def nextMoment? : SortMoment → Option SortMoment
  | ⟨s, k :: ks, entered⟩ =>
    some ⟨g.release s k, ks, if s.waiting.getD k 0 = 1 then entered ++ [k] else entered⟩
  | ⟨⟨_, [], _⟩, [], _⟩ => none
  | ⟨⟨waiting, i :: ready, placed⟩, [], entered⟩ =>
    some ⟨⟨waiting, ready, placed.push i⟩, g.followers.getD i [], entered⟩

/-- The sort after so many changes; at its end it stays as it is. -/
def momentAfter : Nat → SortMoment
  | 0 => ⟨g.sortStart, [], g.sortStart.ready⟩
  | n + 1 => (g.nextMoment? (momentAfter n)).getD (momentAfter n)

/-- The ids placed so far, in order. -/
def placedIds (s : Sorter) : List String := s.placed.toList.map g.idAt

/-- How many of the ids that `id` must come after are not placed. -/
def unmetIds (s : Sorter) (id : String) : Nat :=
  (g.after id).countP fun first => !(g.placedIds s).contains first

/-- The counts at one moment of a sort. -/
structure Tallied (m : SortMoment) : Prop where
  /-- Each id counts the ids that it must follow and that are not placed, and one more
      until it is released; so when none is left to be released, the counts are exact. -/
  waiting : ∀ i id, g.ids[i]? = some id →
    m.sorter.waiting[i]? = some (g.unmetIds m.sorter id + if i ∈ m.unreleased then 1 else 0)
  /-- No count of zero is lowered. -/
  waiting_unreleased : ∀ k ∈ m.unreleased, ∃ n, m.sorter.waiting[k]? = some (n + 1)
  /-- What counts zero is ready until it is placed, and nothing else is. -/
  mem_ready_iff : ∀ i, i ∈ m.sorter.ready ↔ i ∉ m.sorter.placed ∧ m.sorter.waiting[i]? = some 0
  /-- What has become ready is placed or still ready. -/
  entered_perm : m.entered.Perm (m.sorter.placed.toList ++ m.sorter.ready)
  /-- Nothing becomes ready twice. -/
  nodup_entered : m.entered.Nodup

variable {g}

/-! ## The invariant -/

/-- The counts are exact up to what is unreleased, what has been placed is in a legal
    order, and all that has become ready is recorded. -/
structure Sorting (g : PrecedenceGraph) (m : SortMoment) : Prop where
  balanced : Balanced g m.unreleased m.sorter
  nodup : m.sorter.placed.toList.Nodup
  lt_size : ∀ i ∈ m.sorter.placed, i < g.size
  legal : g.Legal m.sorter.placed.toList
  entered_perm : m.entered.Perm (m.sorter.placed.toList ++ m.sorter.ready)

theorem sorting_momentAfter_zero (g : PrecedenceGraph) : Sorting g (g.momentAfter 0) := by
  have h := placing_sortStart g
  exact ⟨h.balanced, h.nodup, h.lt_size, h.legal, .refl _⟩

namespace Sorting

variable {m : SortMoment} {s : Sorter} {k : Nat} {ks entered : List Nat}

theorem placing (h : Sorting g ⟨s, [], entered⟩) : Placing g s :=
  ⟨h.balanced, h.nodup, h.lt_size, h.legal⟩

theorem release (h : Sorting g ⟨s, k :: ks, entered⟩) :
    Sorting g ⟨g.release s k, ks, if s.waiting.getD k 0 = 1 then entered ++ [k] else entered⟩ := by
  obtain ⟨hbalanced, hplaced⟩ := h.balanced.release
  refine ⟨hbalanced, hplaced ▸ h.nodup, hplaced ▸ h.lt_size, hplaced ▸ h.legal, ?_⟩
  have hwait : s.waiting.getD k 0 = g.unmet s.placed k + 1 := by
    rw [h.balanced.waiting (h.balanced.lt_size k (List.mem_cons_self ..)),
      if_pos (List.mem_cons_self ..)]
  simp only [hwait, release_of_getD hwait, Nat.succ.injEq]
  split
  · have hready : (s.ready ++ [k]).Perm (g.insertReady k s.ready) :=
      (List.perm_append_singleton k s.ready).trans (g.insertReady_perm k s.ready).symm
    have hentered := h.entered_perm.append_right [k]
    rw [List.append_assoc] at hentered
    exact hentered.trans (hready.append_left _)
  · exact h.entered_perm

theorem place (hg : g.Coherent) {waiting placed : Array Nat} {i : Nat} {ready : List Nat}
    (h : Sorting g ⟨⟨waiting, i :: ready, placed⟩, [], entered⟩) :
    Sorting g ⟨⟨waiting, ready, placed.push i⟩, g.followers.getD i [], entered⟩ := by
  have hplacing := h.placing
  have hnext := hplacing.placeNext hg
  have hplaced := hplacing.placed_placeNext hg
  refine ⟨hplacing.balanced_push hg, hplaced ▸ hnext.nodup, hplaced ▸ hnext.lt_size,
    hplaced ▸ hnext.legal, ?_⟩
  simpa using h.entered_perm

/-- Every change keeps the invariant. -/
theorem next? (hg : g.Coherent) (h : Sorting g m) {m' : SortMoment}
    (hnext : g.nextMoment? m = some m') : Sorting g m' := by
  match m, h, hnext with
  | ⟨_, _ :: _, _⟩, h, hnext =>
    cases hnext
    exact h.release
  | ⟨⟨_, [], _⟩, [], _⟩, _, hnext => cases hnext
  | ⟨⟨_, _ :: _, _⟩, [], _⟩, h, hnext =>
    cases hnext
    exact h.place hg

end Sorting

theorem sorting_momentAfter (hg : g.Coherent) (n : Nat) : Sorting g (g.momentAfter n) := by
  induction n with
  | zero => exact sorting_momentAfter_zero g
  | succ n ih =>
    rw [momentAfter]
    cases hnext : g.nextMoment? (g.momentAfter n) with
    | none => exact ih
    | some m => exact ih.next? hg hnext

/-! ## What the invariant says of ids -/

theorem after_idAt (hg : g.Coherent) {i : Nat} (hi : i < g.size) :
    g.after (g.idAt i) = (g.targetsAt i).map g.idAt := by
  rw [after, hg.position?_idAt hi]

/-- To count positions is to count ids. -/
theorem unmetIds_idAt (hg : g.Coherent) {s : Sorter} (hs : ∀ i ∈ s.placed, i < g.size) {i : Nat}
    (hi : i < g.size) : g.unmetIds s (g.idAt i) = g.unmet s.placed i := by
  rw [unmetIds, after_idAt hg hi, List.countP_map, unmet]
  refine List.countP_congr fun j hj => ?_
  have hmem : g.idAt j ∈ g.placedIds s ↔ j ∈ s.placed := by
    rw [placedIds, List.mem_map]
    constructor
    · rintro ⟨k, hk, hkj⟩
      have hk := Array.mem_toList_iff.1 hk
      rwa [← hg.idAt_inj (hs k hk) (hg.target_lt hj) hkj]
    · exact fun hj => ⟨j, Array.mem_toList_iff.2 hj, rfl⟩
  simp [hmem]

theorem Balanced.getElem?_waiting {unreleased : List Nat} {s : Sorter} (h : Balanced g unreleased s)
    {i : Nat} (hi : i < g.size) :
    s.waiting[i]? = some (g.unmet s.placed i + if i ∈ unreleased then 1 else 0) := by
  have hlt : i < s.waiting.size := h.size ▸ hi
  rw [← h.waiting hi, Array.getD_eq_getD_getElem?, Array.getElem?_eq_getElem hlt, Option.getD_some]

theorem Sorting.tallied (hg : g.Coherent) {m : SortMoment} (h : Sorting g m) : g.Tallied m where
  waiting i id hid := by
    obtain ⟨hi, rfl⟩ := getElem?_ids_eq_some_iff.1 hid
    rw [h.balanced.getElem?_waiting hi, unmetIds_idAt hg h.lt_size hi]
  waiting_unreleased k hk := by
    refine ⟨g.unmet m.sorter.placed k, ?_⟩
    rw [h.balanced.getElem?_waiting (h.balanced.lt_size k hk), if_pos hk]
  mem_ready_iff i := by
    rw [h.balanced.mem_ready_iff]
    constructor
    · rintro ⟨hi, hnew, hzero⟩
      rw [h.balanced.waiting hi] at hzero
      exact ⟨hnew, by rw [h.balanced.getElem?_waiting hi, hzero]⟩
    · rintro ⟨hnew, hzero⟩
      have hi : i < m.sorter.waiting.size := (Array.getElem?_eq_some_iff.1 hzero).1
      refine ⟨h.balanced.size ▸ hi, hnew, ?_⟩
      rw [Array.getD_eq_getD_getElem?, hzero, Option.getD_some]
  entered_perm := h.entered_perm
  nodup_entered := by
    refine h.entered_perm.nodup_iff.2 (List.nodup_append.2 ⟨h.nodup, h.balanced.nodup_ready, ?_⟩)
    rintro i hi j hj rfl
    exact (h.balanced.mem_ready_iff.1 hj).2.1 (Array.mem_toList_iff.1 hi)

/-! ## The changes make up the sort -/

theorem momentAfter_succ {n : Nat} {m : SortMoment} (h : g.nextMoment? (g.momentAfter n) = some m) :
    g.momentAfter (n + 1) = m := by
  rw [momentAfter, h, Option.getD_some]

/-- All that is left to be released is released. -/
theorem exists_momentAfter_foldl_release {s : Sorter} {ks entered : List Nat} {n : Nat}
    (h : g.momentAfter n = ⟨s, ks, entered⟩) :
    ∃ n' entered', g.momentAfter n' = ⟨ks.foldl g.release s, [], entered'⟩ := by
  induction ks generalizing s entered n with
  | nil => exact ⟨n, entered, h⟩
  | cons k ks ih => exact ih (momentAfter_succ (by rw [h]; rfl))

theorem exists_momentAfter_sortRun (s : Sorter) : ∀ n entered, g.momentAfter n = ⟨s, [], entered⟩ →
    ∃ n' entered', g.momentAfter n' = ⟨g.sortRun g.followers s, [], entered'⟩ := by
  induction s using sortRun.induct g g.followers with
  | case1 waiting placed =>
    intro n entered h
    rw [sortRun]
    exact ⟨n, entered, h⟩
  | case2 waiting i ready placed ih =>
    intro n entered h
    rw [sortRun]
    have hplaced := momentAfter_succ (n := n) (by rw [h]; rfl)
    obtain ⟨n', entered', hreleased⟩ := exists_momentAfter_foldl_release hplaced
    exact ih n' entered' hreleased

theorem sortRun_ready (s : Sorter) : (g.sortRun g.followers s).ready = [] := by
  fun_induction sortRun g g.followers s with
  | case1 waiting placed => rfl
  | case2 waiting i ready placed ih => exact ih

theorem exists_momentAfter_eq (g : PrecedenceGraph) :
    ∃ n, g.nextMoment? (g.momentAfter n) = none ∧
      g.placedIds (g.momentAfter n).sorter = g.sorted := by
  obtain ⟨n, entered, h⟩ := exists_momentAfter_sortRun g.sortStart 0 _ rfl
  refine ⟨n, ?_, by rw [h]; rfl⟩
  have hready := sortRun_ready (g := g) g.sortStart
  rw [h]
  generalize g.sortRun g.followers g.sortStart = s at hready
  obtain ⟨waiting, ready, placed⟩ := s
  cases hready
  rfl

/-- **The counts of a sort.**  Whatever steps a graph was built by, cycles or not, at every
    moment of its sort each id counts the ids that it must follow and that are not
    placed, and one more if it must follow the id placed last and has not been released
    since.  No count of zero is lowered, the ids that are ready are those that are not
    placed and count zero, and no id becomes ready twice.  The sort ends, with the
    order. -/
theorem tallied_run (ops : List GraphOp) :
    (∀ n, (run ops).Tallied ((run ops).momentAfter n)) ∧
      ∃ n, (run ops).nextMoment? ((run ops).momentAfter n) = none ∧
        (run ops).placedIds ((run ops).momentAfter n).sorter = (run ops).sorted := by
  have hg := (reflects_run ops).coherent
  exact ⟨fun n => (sorting_momentAfter hg n).tallied hg, exists_momentAfter_eq _⟩

end PrecedenceGraph

end InstallerLinker
