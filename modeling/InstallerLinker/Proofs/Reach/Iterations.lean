/-
  Installer linker — the loop of a search, iteration by iteration.

  `stateAfter` is the state after a number of iterations and `readBefore` what has
  been read by then.  Both go through the states that `Passes` admits, so that
  what is preserved by an iteration holds at each of them.

  * `Trail` is the invariant on the stack: its sections are distinct, the entry
    lies at the bottom, and each section was entered through the reference that
    was read last of the section below it.  `Trail.readNext` and `Trail.enter` are
    the two steps that could break it;
  * `Steady` adds what the stack says of the sections: those on it are visited and
    read up to their cursors, all others are read to the end or not at all;
  * `iterations` is the length of the loop: each reference of the sections reached
    is read in one iteration, and each of these sections is left in one;
  * `steady_until_end` puts the two together.
-/
import Mathlib.Data.List.Chain
import Mathlib.Data.List.Perm.Subperm
import Mathlib.Data.Nat.Find
import InstallerLinker.Proofs.Reach.Passes

namespace InstallerLinker.Scope

variable {g : Scope} {entry : SectionIndex} {read : List (SectionIndex × Reference)}

/-! ## The trail to the section entered last -/

/-- The reference that was read last of section `i` leads to section `j`. -/
def LedTo (g : Scope) (read : List (SectionIndex × Reference)) (i j : SectionIndex) : Prop :=
  ∃ earlier r, readAt read i = earlier ++ [r] ∧ g.LeadsTo r j

/-- What leads from the entry to the section entered last, which is the first of
    the list. -/
structure Trail (g : Scope) (entry : SectionIndex) (read : List (SectionIndex × Reference))
    (path : List SectionIndex) : Prop where
  nodup : path.Nodup
  bottom : ∀ i ∈ path.getLast?, i = entry
  chain : path.IsChain fun j i => g.LedTo read i j

namespace Trail
variable {i j : SectionIndex} {path : List SectionIndex} {r : Reference}

theorem nil : g.Trail entry read [] :=
  ⟨List.nodup_nil, by simp, .nil⟩

theorem singleton (g : Scope) (entry : SectionIndex) : g.Trail entry read [entry] :=
  ⟨List.nodup_singleton entry, by simp, .singleton entry⟩

theorem leave (h : g.Trail entry read (i :: path)) : g.Trail entry read path where
  nodup := h.nodup.of_cons
  bottom k hk := h.bottom k (by rw [List.getLast?_cons, Option.mem_def.1 hk]; rfl)
  chain := h.chain.of_cons

/-- Reading on in the section entered last changes nothing of those below it. -/
theorem readNext (h : g.Trail entry read (i :: path)) (r : Reference) :
    g.Trail entry (read ++ [(i, r)]) (i :: path) where
  nodup := h.nodup
  bottom := h.bottom
  chain := by
    refine h.chain.imp_of_mem_tail_imp fun k below _ hbelow hled => ?_
    have hne : i ≠ below := fun heq => h.nodup.notMem (heq ▸ hbelow)
    obtain ⟨earlier, r', hread, hr'⟩ := hled
    exact ⟨earlier, r', (readAt_append_of_ne read hne r).trans hread, hr'⟩

theorem enter (h : g.Trail entry (read ++ [(i, r)]) (i :: path)) (hj : g.LeadsTo r j)
    (hfresh : j ∉ i :: path) : g.Trail entry (read ++ [(i, r)]) (j :: i :: path) where
  nodup := List.nodup_cons.2 ⟨hfresh, h.nodup⟩
  bottom k hk := h.bottom k (by rwa [List.getLast?_cons_cons] at hk)
  chain := by
    exact List.isChain_cons_cons.2 ⟨⟨readAt read i, r, readAt_append_self read i r, hj⟩, h.chain⟩

end Trail

/-- The sections on a stack, the one entered last first. -/
def sectionsOn (stack : List Frame) : List SectionIndex := stack.map (·.sectionIndex)

theorem sectionsOn_nil : sectionsOn [] = [] := rfl

theorem sectionsOn_cons (f : Frame) (stack : List Frame) :
    sectionsOn (f :: stack) = f.sectionIndex :: sectionsOn stack := rfl

theorem mem_sectionsOn_iff {stack : List Frame} {i : SectionIndex} :
    i ∈ sectionsOn stack ↔ ∃ f ∈ stack, f.sectionIndex = i := List.mem_map

theorem Passes.trail {t : Traversal} (h : g.Passes entry read t) :
    g.Trail entry read (sectionsOn t.stack) := by
  induction h with
  | start =>
    rcases start_cases g entry with ⟨-, h⟩ | ⟨s, -, -, h⟩
    · rw [h, sectionsOn_nil]
      exact .nil
    · rw [h, sectionsOn_cons, sectionsOn_nil]
      exact .singleton g entry
  | leave _ _ ih => exact ih.leave
  | @follow read reach f below r cursor hp _ ih =>
    rw [sectionsOn_cons] at ih
    have hread := ih.readNext r
    rcases follow_cases (g := g) ⟨reach, ⟨f.sectionIndex, cursor⟩ :: below⟩ f.sectionIndex r with
      ⟨-, h, -⟩ | ⟨j, s, hj, -, hfree, -, h⟩
    · rw [h, sectionsOn_cons]
      exact hread
    · rw [h, sectionsOn_cons, sectionsOn_cons]
      -- a section that is on the stack has been visited, and `j` has not
      refine hread.enter hj fun hmem => ?_
      rw [← sectionsOn_cons] at hmem
      obtain ⟨f', hf', rfl⟩ := mem_sectionsOn_iff.1 hmem
      have hvisited := hp.accounted.onStack f' hf'
      rw [((IndexSet.isFree_eq_true_iff _).1 hfree).2] at hvisited
      cases hvisited

/-! ## What the stack says of the sections -/

theorem unread_eq_nil {stack : List Frame} {i : SectionIndex} (h : i ∉ sectionsOn stack) :
    g.unread stack i = [] := by
  simp only [unread, List.flatMap_eq_nil_iff, List.mem_filter, decide_eq_true_eq]
  rintro f ⟨hf, rfl⟩
  exact absurd (mem_sectionsOn_iff.2 ⟨f, hf, rfl⟩) h

/-- Where the sections on a stack are distinct, one frame alone tells what is still
    to be read of its section. -/
theorem unread_eq_toList {stack : List Frame} (hnodup : (sectionsOn stack).Nodup) {f : Frame}
    (hf : f ∈ stack) : g.unread stack f.sectionIndex = f.cursor.toList g.roles := by
  induction stack with
  | nil => exact absurd hf List.not_mem_nil
  | cons top below ih =>
    rw [sectionsOn_cons] at hnodup
    obtain ⟨htop, hbelow⟩ := List.nodup_cons.1 hnodup
    rw [unread_cons]
    rcases List.mem_cons.1 hf with rfl | hf
    · rw [if_pos rfl, unread_eq_nil htop, List.append_nil]
    · have hne : top.sectionIndex ≠ f.sectionIndex :=
        fun heq => htop (mem_sectionsOn_iff.2 ⟨f, hf, heq.symm⟩)
      rw [if_neg hne, List.nil_append]
      exact ih hbelow hf

/-- What holds between any two iterations: of the sections that have been visited,
    those on the stack are read up to their cursors and all others to the end. -/
structure Steady (g : Scope) (entry : SectionIndex) (read : List (SectionIndex × Reference))
    (t : Traversal) : Prop where
  trail : g.Trail entry read (sectionsOn t.stack)
  visited : ∀ f ∈ t.stack, t.reach.includes f.sectionIndex = true
  length_le : t.stack.length ≤ g.sections.size
  onStack : ∀ f ∈ t.stack,
    readAt read f.sectionIndex ++ f.cursor.toList g.roles = g.referencesAt f.sectionIndex
  offStack : ∀ i, t.reach.includes i = true → i ∉ sectionsOn t.stack →
    readAt read i = g.referencesAt i
  unvisited : ∀ i, t.reach.includes i = false → readAt read i = []

theorem Passes.steady {t : Traversal} (h : g.Passes entry read t) : g.Steady entry read t where
  trail := h.trail
  visited := h.accounted.onStack
  length_le := by
    have hsub : sectionsOn t.stack ⊆ List.range g.sections.size := by
      intro i hi
      obtain ⟨f, hf, rfl⟩ := mem_sectionsOn_iff.1 hi
      exact List.mem_range.2 (h.accounted.reaches _ (h.accounted.onStack f hf)).lt_size
    simpa [sectionsOn] using (h.trail.nodup.subperm hsub).length_le
  onStack f hf := by
    have hi := h.accounted.account f.sectionIndex
    rwa [unread_eq_toList h.trail.nodup hf, if_pos (h.accounted.onStack f hf)] at hi
  offStack i hi hoff := by
    rw [Reach.includes] at hi
    have hacc := h.accounted.account i
    rwa [unread_eq_nil hoff, List.append_nil, if_pos hi] at hacc
  unvisited i hi := by
    rw [Reach.includes] at hi
    have hacc := h.accounted.account i
    rw [hi] at hacc
    exact (List.append_eq_nil_iff.1 hacc).1

/-! ## Counting iterations -/

/-- The reference that the next iteration reads, with its section; `none` where it
    leaves a section or there is no next iteration. -/
def nextRead? (g : Scope) (t : Traversal) : Option (SectionIndex × Reference) :=
  t.stack.head?.bind fun f => (f.cursor.next? g.roles).map fun p => (f.sectionIndex, p.1)

variable (g : Scope) (entry : SectionIndex)

/-- The state after `n` iterations, or at the end if there are fewer. -/
def stateAfter : Nat → Traversal
  | 0 => g.start entry
  | n + 1 => (g.step (stateAfter n)).getD (stateAfter n)

/-- The references that have been read in `n` iterations. -/
def readBefore : Nat → List (SectionIndex × Reference)
  | 0 => []
  | n + 1 => readBefore n ++ (g.nextRead? (g.stateAfter entry n)).toList

/-- The number of iterations: one for each reference of the sections reached and
    one for leaving each of them. -/
def iterations : Nat := ((g.reachFrom entry).sections.toList.map g.weight).sum

variable {g entry}

theorem Passes.getD_step {t : Traversal} (h : g.Passes entry read t) :
    g.Passes entry (read ++ (g.nextRead? t).toList) ((g.step t).getD t) := by
  obtain ⟨reach, _ | ⟨f, below⟩⟩ := t
  · simpa [nextRead?, step] using h
  · cases hn : f.cursor.next? g.roles with
    | none =>
      rw [step_of_next?_eq_none hn]
      simpa [nextRead?, hn] using h.leave hn
    | some p =>
      rw [step_of_next?_eq_some hn]
      simpa [nextRead?, hn] using h.follow hn

theorem passes_stateAfter (g : Scope) (entry : SectionIndex) :
    ∀ n, g.Passes entry (g.readBefore entry n) (g.stateAfter entry n)
  | 0 => .start
  | n + 1 => (passes_stateAfter g entry n).getD_step

/-- A state without frames is the end of the search. -/
theorem Passes.eq_end {t : Traversal} (h : g.Passes entry read t) (hend : g.step t = none) :
    t = ⟨g.reachFrom entry, []⟩ := by
  have hreach : g.reachFrom entry = t.reach := by rw [← h.run_eq, g.run_of_step_eq_none hend]
  obtain ⟨reach, _ | ⟨f, below⟩⟩ := t
  · rw [hreach]
  · cases hend

theorem measure_add_one_of_step {t t' : Traversal} (h : g.step t = some t') :
    g.measure t' + 1 = g.measure t := by
  obtain ⟨reach, _ | ⟨f, below⟩⟩ := t
  · cases h
  · cases h
    exact g.measure_advance_add_one reach f below

/-- As long as the search goes on, the measure tells how many iterations there have
    been. -/
theorem measure_stateAfter_add {n : Nat} (h : ∀ m < n, g.step (g.stateAfter entry m) ≠ none) :
    g.measure (g.stateAfter entry n) + n = g.measure (g.start entry) := by
  induction n with
  | zero => rfl
  | succ n ih =>
    obtain ⟨t, ht⟩ := Option.ne_none_iff_exists'.1 (h n n.lt_succ_self)
    have hmeasure := measure_add_one_of_step ht
    have ih := ih fun m hm => h m (Nat.lt_succ_of_lt hm)
    rw [stateAfter, ht, Option.getD_some]
    omega

theorem exists_step_eq_none (g : Scope) (entry : SectionIndex) :
    ∃ n, g.step (g.stateAfter entry n) = none := by
  by_contra hnone
  have hmeasure : ∀ n, g.measure (g.stateAfter entry n) + n = g.measure (g.start entry) :=
    fun n => measure_stateAfter_add fun m _ hm => hnone ⟨m, hm⟩
  have hbeyond := hmeasure (g.measure (g.start entry) + 1)
  omega

theorem stateAfter_of_le {n m : Nat} (h : g.step (g.stateAfter entry n) = none) (hle : n ≤ m) :
    g.stateAfter entry m = g.stateAfter entry n := by
  induction hle with
  | refl => rfl
  | step _ ih => rw [stateAfter, ih, h, Option.getD_none]

/-- Visits move weight from the sections not visited to those visited. -/
theorem Passes.pending_add_sum {t : Traversal} (h : g.Passes entry read t) :
    t.reach.sections.pending g.weight + (t.reach.sections.toList.map g.weight).sum =
      (IndexSet.empty g.sections.size).pending g.weight := by
  induction h with
  | start =>
    rcases start_cases g entry with ⟨-, h⟩ | ⟨s, -, h, -⟩
    · simp [h, Reach.empty]
    · rw [h, IndexSet.pending_add_sum_insert]
      simp
  | leave _ _ ih => exact ih
  | @follow read reach f below r cursor _ _ ih =>
    rcases follow_cases (g := g) ⟨reach, ⟨f.sectionIndex, cursor⟩ :: below⟩ f.sectionIndex r with
      ⟨h, -, -⟩ | ⟨j, s, -, -, -, h, -⟩
    · rw [h]
      exact ih
    · rw [h, IndexSet.pending_add_sum_insert]
      exact ih

theorem measure_start (g : Scope) (entry : SectionIndex) :
    g.measure (g.start entry) = (IndexSet.empty g.sections.size).pending g.weight := by
  rw [start, measure_visit]
  rfl

/-- The first state without frames comes after exactly `iterations`. -/
theorem eq_iterations {n : Nat} (hgoes : ∀ m < n, g.step (g.stateAfter entry m) ≠ none)
    (hend : g.step (g.stateAfter entry n) = none) : n = g.iterations entry := by
  have hpasses := passes_stateAfter g entry n
  have hmeasure := measure_stateAfter_add hgoes
  have hsum := hpasses.pending_add_sum
  rw [hpasses.eq_end hend] at hmeasure hsum
  rw [measure_start, ← hsum] at hmeasure
  simp only [measure, stackWeight, Nat.add_zero, Nat.add_left_cancel_iff] at hmeasure
  exact hmeasure

/-- **The loop of a search.**  Between any two iterations the stack is a path of
    references from the entry through distinct sections that have been visited, each
    entered through the reference read last of the one below, so that it is never
    longer than there are sections; visited sections off the stack are read to the
    end.  The loop ends on any graph of sections, after exactly `iterations`, when
    each reference of each section visited has been read once. -/
theorem steady_until_end (g : Scope) (entry : SectionIndex) :
    (∀ n, g.Steady entry (g.readBefore entry n) (g.stateAfter entry n)) ∧
      (∀ n, g.step (g.stateAfter entry n) = none ↔ g.iterations entry ≤ n) ∧
      ∀ n, g.iterations entry ≤ n →
        g.stateAfter entry n = ⟨g.reachFrom entry, []⟩ ∧
        ∀ i, (g.reachFrom entry).includes i = true →
          readAt (g.readBefore entry n) i = g.referencesAt i := by
  classical
  have hex := exists_step_eq_none g entry
  have hfind : Nat.find hex = g.iterations entry :=
    eq_iterations (fun m hm => Nat.find_min hex hm) (Nat.find_spec hex)
  have hdone : g.step (g.stateAfter entry (g.iterations entry)) = none :=
    hfind ▸ Nat.find_spec hex
  have hiff : ∀ n, g.step (g.stateAfter entry n) = none ↔ g.iterations entry ≤ n := by
    intro n
    constructor
    · exact fun hn => hfind ▸ Nat.find_min' hex hn
    · exact fun hle => stateAfter_of_le hdone hle ▸ hdone
  refine ⟨fun n => (passes_stateAfter g entry n).steady, hiff, fun n hn => ?_⟩
  have hpasses := passes_stateAfter g entry n
  have hend := hpasses.eq_end ((hiff n).2 hn)
  refine ⟨hend, fun i hi => ?_⟩
  rw [hend] at hpasses
  rw [hpasses.readAt_eq, if_pos hi]

end InstallerLinker.Scope
