/-
  Installer linker — a closed graph says all that follows.

  Most positions are closed when the graph is closed in part already, and those on a
  cycle are left out.  All the same, in the end an id that is on no cycle has a
  constraint to whatever it had to follow in the graph as it was, and nothing is left
  to add.

  * `Saturates` is what has come of a graph when some of its positions have been closed;
    `Saturates.closeAt` is its step and `saturates_close` the result;
  * `IsClosed` graphs lack nothing, and `close_of_isClosed` says that they stay as they
    are;
  * `constraintsOf` are the constraints of an id, and `IsClosureOf` says in ids what it
    is to close a graph;
  * `isClosureOf_run` says it of all runs.
-/
import InstallerLinker.Proofs.PrecedenceGraph.CycleReport

namespace InstallerLinker.PrecedenceGraph
open Relation

variable {g g' : PrecedenceGraph} {i j n : Nat}

/-! ## One position -/

theorem closeAt_of_cycle (hg : g.Coherent) (hi : TransGen g.Edge i i) : g.closeAt i = g := by
  rw [closeAt, if_pos ((isSome_findCycle_iff hg i).2 hi)]

theorem closeAt_of_no_cycle (hg : g.Coherent) (hi : ¬ TransGen g.Edge i i) :
    g.closeAt i = g.implyAt i (g.impliedTargets i) := by
  rw [closeAt, if_neg (mt (isSome_findCycle_iff hg i).1 hi)]

/-- A position that is closed has a constraint to whatever it leads to. -/
theorem edge_closeAt (hg : g.Coherent) (hi : ¬ TransGen g.Edge i i) (hij : TransGen g.Edge i j) :
    (g.closeAt i).Edge i j := by
  have hsize := lt_size_of_transGen hij
  rw [closeAt_of_no_cycle hg hi, Edge, targetsAt_implyAt hsize, if_pos rfl, List.mem_append]
  by_cases hedge : g.Edge i j
  · exact Or.inl hedge
  · refine Or.inr ((mem_impliedTargets_iff hg hsize).2 ⟨?_, hij, hedge⟩)
    rintro rfl
    exact hi hij

/-! ## All positions -/

/-- The graph `g'` is what comes of `g` when the positions below `n` are closed. -/
structure Saturates (g : PrecedenceGraph) (n : Nat) (g' : PrecedenceGraph) : Prop where
  complete : ∀ {i j}, i < n → ¬ TransGen g.Edge i i → TransGen g.Edge i j → g'.Edge i j
  added : ∀ i, ∃ js : List Nat, g'.constraintsAt i = g.constraintsAt i ++ js.map (⟨·, none⟩)
  on_cycle : ∀ {i}, TransGen g.Edge i i → g'.constraintsAt i = g.constraintsAt i

theorem saturates_zero (g : PrecedenceGraph) : Saturates g 0 g where
  complete hi := absurd hi (Nat.not_lt_zero _)
  added _ := ⟨[], by rw [List.map_nil, List.append_nil]⟩
  on_cycle _ := rfl

theorem Saturates.closeAt (hn : n < g.size) (hg' : g'.Coherent) (he : Extends g g')
    (h : Saturates g n g') : Saturates g (n + 1) (g'.closeAt n) := by
  have hn' : n < g'.size := he.size ▸ hn
  by_cases hcycle : TransGen g.Edge n n
  · rw [closeAt_of_cycle hg' (he.transGen_iff.2 hcycle)]
    refine ⟨fun {i j} hi hno hij => ?_, h.added, h.on_cycle⟩
    rcases Nat.lt_succ_iff_lt_or_eq.1 hi with hi | rfl
    · exact h.complete hi hno hij
    · exact absurd hcycle hno
  · have hno' : ¬ TransGen g'.Edge n n := mt he.transGen_iff.1 hcycle
    have hconstraints : ∀ k, (g'.closeAt n).constraintsAt k =
        if n = k then g'.constraintsAt k ++ (g'.impliedTargets n).map (⟨·, none⟩)
        else g'.constraintsAt k := fun k => by
      rw [closeAt_of_no_cycle hg' hno', constraintsAt_implyAt hn']
    refine ⟨fun {i j} hi hno hij => ?_, fun k => ?_, fun {k} hk => ?_⟩
    · rcases Nat.lt_succ_iff_lt_or_eq.1 hi with hi | rfl
      · exact (hg'.closeAt hn').2.edge (h.complete hi hno hij)
      · exact edge_closeAt hg' hno' (he.transGen_iff.2 hij)
    · obtain ⟨js, hjs⟩ := h.added k
      rw [hconstraints, hjs]
      split
      · exact ⟨js ++ g'.impliedTargets n, by rw [List.map_append, List.append_assoc]⟩
      · exact ⟨js, rfl⟩
    · have hne : n ≠ k := fun heq => hcycle (heq ▸ hk)
      rw [hconstraints, if_neg hne, h.on_cycle hk]

theorem saturates_close (hg : g.Coherent) : Saturates g g.size g.close :=
  (close_steps hg (saturates_zero g) fun hn hg' he h => h.closeAt hn hg' he).2.2

theorem edge_close_iff (hg : g.Coherent) (hi : ¬ TransGen g.Edge i i) :
    g.close.Edge i j ↔ TransGen g.Edge i j := by
  refine ⟨hg.close.2.follows, fun hij => ?_⟩
  exact (saturates_close hg).complete (lt_size_of_transGen hij) hi hij

/-! ## Closing again -/

/-- Each position that is on no cycle has a constraint to whatever it leads to. -/
def IsClosed (g : PrecedenceGraph) : Prop :=
  ∀ i j, ¬ TransGen g.Edge i i → TransGen g.Edge i j → g.Edge i j

theorem isClosed_close (hg : g.Coherent) : g.close.IsClosed := by
  intro i j hi hij
  rw [hg.close.2.transGen_iff] at hi hij
  exact (edge_close_iff hg hi).2 hij

theorem implyAt_nil (g : PrecedenceGraph) (i : Nat) : g.implyAt i [] = g := by
  obtain ⟨vertices, index⟩ := g
  have hvertices : vertices.modify i (fun v => ⟨v.id, v.constraints ++ []⟩) = vertices := by
    refine Array.ext_getElem? fun k => ?_
    rw [Array.getElem?_modify]
    cases vertices[k]? <;> simp
  exact congrArg (PrecedenceGraph.mk · index) hvertices

theorem closeAt_of_isClosed (hg : g.Coherent) (h : g.IsClosed) (hi : i < g.size) :
    g.closeAt i = g := by
  by_cases hcycle : TransGen g.Edge i i
  · exact closeAt_of_cycle hg hcycle
  · have hnil : g.impliedTargets i = [] := by
      refine List.eq_nil_iff_forall_not_mem.2 fun j hj => ?_
      obtain ⟨-, hij, hno⟩ := (mem_impliedTargets_iff hg hi).1 hj
      exact hno (h i j hcycle hij)
    rw [closeAt_of_no_cycle hg hcycle, hnil, implyAt_nil]

theorem close_of_isClosed (hg : g.Coherent) (h : g.IsClosed) : g.close = g := by
  refine (close_steps (P := fun _ g' => g' = g) hg rfl ?_).2.2
  rintro n _ hn - - rfl
  exact closeAt_of_isClosed hg h hn

/-! ## The constraints of an id -/

/-- What an id must come after, in the order in which that was added, each with the
    place where it was stated if it was. -/
def constraintsOf (g : PrecedenceGraph) (id : String) : List (String × Option Location) :=
  match g.position? id with
  | none => []
  | some i => (g.constraintsAt i).map fun c => (g.idAt c.target, c.location)

theorem map_fst_constraintsOf (g : PrecedenceGraph) (id : String) :
    (g.constraintsOf id).map Prod.fst = g.after id := by
  unfold constraintsOf after
  cases g.position? id with
  | none => rfl
  | some i =>
    simp only [targetsAt, List.map_map]
    rfl

theorem Coherent.nodup_after (hg : g.Coherent) (id : String) : (g.after id).Nodup := by
  unfold after
  cases g.position? id with
  | none => exact List.nodup_nil
  | some i =>
    refine (hg.nodup_targets i).map_on fun j hj k hk hjk => ?_
    exact hg.idAt_inj (hg.target_lt hj) (hg.target_lt hk) hjk

theorem Extends.transGen_follows_iff (he : Extends g g') (hg : g.Coherent) (hg' : g'.Coherent)
    {a b : String} : TransGen g'.Follows a b ↔ TransGen g.Follows a b := by
  simp only [transGen_follows_iff_exists hg', transGen_follows_iff_exists hg, he.transGen_iff,
    he.idAt]

/-- If the ids stand where they did, the constraints of an id are those of its position. -/
theorem Extends.constraintsOf_eq (he : Extends g g') (id : String) :
    g'.constraintsOf id = match g.position? id with
      | none => []
      | some i => (g'.constraintsAt i).map fun c => (g.idAt c.target, c.location) := by
  simp only [constraintsOf, he.position?, he.idAt]

/-! ## A closed graph -/

theorem exists_constraintsOf_close (hg : g.Coherent) (id : String) :
    ∃ implied : List String,
      g.close.constraintsOf id = g.constraintsOf id ++ implied.map (·, none) := by
  rw [hg.close.2.constraintsOf_eq, constraintsOf]
  cases g.position? id with
  | none => exact ⟨[], rfl⟩
  | some i =>
    obtain ⟨js, hjs⟩ := (saturates_close hg).added i
    refine ⟨js.map g.idAt, ?_⟩
    simp only [hjs, List.map_append, List.map_map, Function.comp_def]

theorem constraintsOf_close_of_cycle (hg : g.Coherent) {id : String}
    (hid : TransGen g.Follows id id) : g.close.constraintsOf id = g.constraintsOf id := by
  obtain ⟨i, hi, rfl⟩ := (transGen_follows_self_iff hg).1 hid
  rw [hg.close.2.constraintsOf_eq, constraintsOf, hg.position?_idAt (lt_size_of_transGen hi)]
  simp only [(saturates_close hg).on_cycle hi]

theorem follows_close_iff (hg : g.Coherent) {a b : String} (ha : ¬ TransGen g.Follows a a) :
    g.close.Follows a b ↔ TransGen g.Follows a b := by
  rw [follows_iff hg.close.1, transGen_follows_iff_exists hg]
  refine exists_congr fun i => exists_congr fun j => ?_
  rw [hg.close.2.idAt, hg.close.2.idAt]
  refine and_congr_left fun ⟨hi, _⟩ => edge_close_iff hg fun hcycle => ha ?_
  exact (transGen_follows_self_iff hg).2 ⟨i, hcycle, hi⟩

/-- What it is to close a graph `g`, where `g'` comes of it. -/
structure IsClosureOf (g' g : PrecedenceGraph) : Prop where
  ids : g'.ids = g.ids
  /-- The constraints that an id had come first, with their places; those that are added
      were not stated. -/
  constraintsOf : ∀ a, ∃ implied : List String,
    g'.constraintsOf a = g.constraintsOf a ++ implied.map (·, none)
  after_prefix : ∀ a, g.after a <+: g'.after a
  nodup_after : ∀ a, (g'.after a).Nodup
  /-- An id that is on no cycle is constrained by whatever it led to. -/
  mem_after_iff : ∀ a b, ¬ TransGen g.Follows a a → (b ∈ g'.after a ↔ TransGen g.Follows a b)
  /-- An id on a cycle keeps its constraints and gets no other. -/
  on_cycle : ∀ a, TransGen g.Follows a a → g'.constraintsOf a = g.constraintsOf a
  transGen_follows_iff : ∀ a b, TransGen g'.Follows a b ↔ TransGen g.Follows a b

theorem Coherent.isClosureOf_close (hg : g.Coherent) : g.close.IsClosureOf g where
  ids := hg.close.2.ids
  constraintsOf := exists_constraintsOf_close hg
  after_prefix a := by
    obtain ⟨implied, hconstraints⟩ := exists_constraintsOf_close hg a
    rw [← map_fst_constraintsOf, ← map_fst_constraintsOf, hconstraints, List.map_append]
    exact List.prefix_append _ _
  nodup_after := hg.close.1.nodup_after
  mem_after_iff _ _ ha := follows_close_iff hg ha
  on_cycle _ ha := constraintsOf_close_of_cycle hg ha
  transGen_follows_iff _ _ := hg.close.2.transGen_follows_iff hg hg.close.1

/-- **What it is to close a graph.**  However a graph was built, to close it gives each id
    that is on no cycle a constraint to whatever it led to before, each once and behind
    those that it had; on a cycle nothing changes.  What leads to what is the same, and to
    close the graph again changes nothing at all. -/
theorem isClosureOf_run (ops : List GraphOp) :
    (run ops).close.IsClosureOf (run ops) ∧ (run ops).close.close = (run ops).close := by
  have hg := (reflects_run ops).coherent
  exact ⟨hg.isClosureOf_close, close_of_isClosed hg.close.1 (isClosed_close hg)⟩

/-- A chain into an id that was said to come after itself. -/
def chainIntoLoop : List GraphOp :=
  [.addConstraint "a" "b" (.atLine "chain" 1), .addConstraint "b" "c" (.atLine "chain" 2),
    .addConstraint "c" "c" (.atLine "chain" 3)]

theorem isClosureOf_chainIntoLoop :
    ¬ TransGen (run chainIntoLoop).Follows "a" "a" ∧
      (run chainIntoLoop).close.constraintsOf "a" =
        [("b", some (.atLine "chain" 1)), ("c", none)] ∧
      TransGen (run chainIntoLoop).Follows "a" "c" ∧
      TransGen (run chainIntoLoop).Follows "c" "c" ∧
      (run chainIntoLoop).close.constraintsOf "c" = [("c", some (.atLine "chain" 3))] := by
  have hg := (reflects_run chainIntoLoop).coherent
  obtain ⟨h, -⟩ := isClosureOf_run chainIntoLoop
  have hno : ¬ TransGen (run chainIntoLoop).Follows "a" "a" := by
    have ha : (run chainIntoLoop).idAt 0 = "a" := by decide +kernel
    have hsize : 0 < (run chainIntoLoop).size := by decide +kernel
    rw [← ha, transGen_follows_iff hg hsize hsize, ← isSome_findCycle_iff hg]
    decide +kernel
  have hclosed : (run chainIntoLoop).close.constraintsOf "a" =
      [("b", some (.atLine "chain" 1)), ("c", none)] := by decide +kernel
  have hloop : TransGen (run chainIntoLoop).Follows "c" "c" := by
    refine .single ?_
    show "c" ∈ (run chainIntoLoop).after "c"
    decide +kernel
  refine ⟨hno, hclosed, ?_, hloop, ?_⟩
  · rw [← h.mem_after_iff "a" "c" hno, ← map_fst_constraintsOf, hclosed]
    decide
  · rw [h.on_cycle "c" hloop]
    decide +kernel

end InstallerLinker.PrecedenceGraph
