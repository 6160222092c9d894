/-
  Installer linker — where a reported cycle is located.

  A cycle is reported at its first constraint.  An implied constraint has no
  location, and a search goes along implied constraints too.  Still it never
  begins a cycle with one: an implied constraint stands behind another one of the
  same id that leads to the same target, and a search that has tried that one in
  vain has met the target.

  * `Backed` says that a target can be reached by an earlier one, and `Supported`
    that all implied targets can; `supported_run` says that graphs are built so;
  * `Opening` is what a search keeps besides `Searching`: the first step that it
    has taken is not backed;
  * `location_reports_run` is the result.
-/
import InstallerLinker.Proofs.PrecedenceGraph.CycleReport

namespace InstallerLinker.PrecedenceGraph
open Relation

variable {g g' : PrecedenceGraph} {start i j k : Nat}

/-! ## Targets that earlier ones lead to -/

/-- Among the targets of `i` some other one stands before `j`, from which a way
    that does not come back to `i` leads to `j`. -/
def Backed (g : PrecedenceGraph) (i j : Nat) : Prop :=
  ∃ k, [k, j].Sublist (g.targetsAt i) ∧ k ≠ i ∧ ReflTransGen (fun a b => g.Edge a b ∧ b ≠ i) k j

theorem Backed.ne (h : g.Backed i j) : j ≠ i := by
  obtain ⟨k, -, hk, hkj⟩ := h
  cases hkj with
  | refl => exact hk
  | tail _ hstep => exact hstep.2

theorem Backed.mono (htargets : ∀ a, g.targetsAt a <+: g'.targetsAt a) (h : g.Backed i j) :
    g'.Backed i j := by
  obtain ⟨k, hbefore, hk, hkj⟩ := h
  refine ⟨k, hbefore.trans (htargets i).sublist, hk, hkj.lift id fun a b hab => ?_⟩
  exact ⟨(htargets a).subset hab.1, hab.2⟩

/-- A way from `i` goes through one of its targets first, and does not come back
    unless there is a cycle. -/
theorem exists_first_target (hacyclic : ¬ TransGen g.Edge i i) (hij : TransGen g.Edge i j) :
    ∃ k, g.Edge i k ∧ k ≠ i ∧ ReflTransGen (fun a b => g.Edge a b ∧ b ≠ i) k j := by
  obtain ⟨k, hik, hkj⟩ := TransGen.head'_iff.1 hij
  refine ⟨k, hik, fun hk => hacyclic (.single (hk ▸ hik)), ?_⟩
  clear hij
  induction hkj with
  | refl => exact .refl
  | tail hka hab ih =>
    have hib := (TransGen.head' hik hka).tail hab
    exact ih.tail ⟨hab, fun hb => hacyclic (hb ▸ hib)⟩

/-! ## Implied constraints are backed -/

/-- Every implied target is backed. -/
def Supported (g : PrecedenceGraph) : Prop :=
  ∀ i j, g.Edge i j → g.statedAt? i j = none → g.Backed i j

theorem supported_empty : (∅ : PrecedenceGraph).Supported :=
  fun _ _ hij => absurd hij.lt_size (Nat.not_lt_zero _)

namespace Supported

theorem place (hg : g.Coherent) (h : g.Supported) (id : String) : (g.place id).1.Supported := by
  have htargets : ∀ a, (g.place id).1.targetsAt a = g.targetsAt a := fun a => by
    rw [targetsAt, constraintsAt_place hg, ← targetsAt]
  intro i j hij hstated
  rw [Edge, htargets] at hij
  rw [statedAt?, constraint?, constraintsAt_place hg, ← constraint?, ← statedAt?] at hstated
  exact (h i j hij hstated).mono fun a => by rw [htargets]

theorem stateAt (h : g.Supported) (hi : i < g.size) (location : Location) :
    (g.stateAt i j location).1.Supported := by
  intro k m hkm hstated
  obtain ⟨hold, hunstated⟩ := edge_of_unstated hi location hkm hstated
  refine (h k m hold hunstated).mono fun a => ?_
  rw [targetsAt_stateAt hi]
  split
  · exact List.prefix_append _ _
  · exact List.prefix_rfl

theorem closeAt (hg : g.Coherent) (h : g.Supported) (hi : i < g.size) :
    (g.closeAt i).Supported := by
  have hgrown := (hg.closeAt hi).2.targetsAt
  unfold PrecedenceGraph.closeAt at hgrown ⊢
  split
  · exact h
  · next hcycle =>
    rw [if_neg hcycle] at hgrown
    rw [isSome_findCycle_iff hg] at hcycle
    intro k m hkm hstated
    rw [statedAt?_implyAt hi] at hstated
    rw [Edge, targetsAt_implyAt hi] at hkm
    split at hkm
    · next hik =>
      subst hik
      rcases List.mem_append.1 hkm with hkm | hkm
      · exact (h _ _ hkm hstated).mono hgrown
      · -- the way that implies the target begins with one that was there before
        obtain ⟨-, him, -⟩ := (mem_impliedTargets_iff hg hi).1 hkm
        obtain ⟨a, hia, ha, ham⟩ := exists_first_target hcycle him
        refine ⟨a, ?_, ha, ham.lift id fun b c hbc => ⟨(hgrown b).subset hbc.1, hbc.2⟩⟩
        rw [targetsAt_implyAt hi, if_pos rfl]
        exact (List.singleton_sublist.2 hia).append (List.singleton_sublist.2 hkm)
    · exact (h _ _ hkm hstated).mono hgrown

end Supported

theorem supported_run (ops : List GraphOp) : (run ops).Supported :=
  run_induct (P := Supported) (fun hg h id => h.place hg id)
    (fun _ h _ _ hi _ location => h.stateAt hi location) (fun hg h _ hi => h.closeAt hg hi)
    supported_empty ops

/-! ## The first step of a search -/

/-- At the bottom of the stack are the start, with some last ones of its targets to
    be followed, and above it the first step, which is not backed. -/
inductive Opening (g : PrecedenceGraph) (start : Nat) : List PathFrame → Prop where
  | bottom {js : List Nat} : js <:+ g.targetsAt start → Opening g start [⟨start, js⟩]
  | first {j : Nat} {ks js : List Nat} : js <:+ g.targetsAt start → ¬ g.Backed start j →
      Opening g start [⟨j, ks⟩, ⟨start, js⟩]
  | above {f f' f'' : PathFrame} {below : List PathFrame} : Opening g start (f' :: f'' :: below) →
      Opening g start (f :: f' :: f'' :: below)

namespace Opening

variable {seen : IndexSet} {f f' : PathFrame} {js : List Nat} {below : List PathFrame}

theorem leave (h : Opening g start (f :: f' :: below)) : Opening g start (f' :: below) := by
  cases h with
  | first hjs _ => exact .bottom hjs
  | above h => exact h

theorem pass (h : Opening g start (⟨i, j :: js⟩ :: below)) :
    Opening g start (⟨i, js⟩ :: below) := by
  cases h with
  | bottom hjs => exact .bottom ((List.suffix_cons j js).trans hjs)
  | first hjs hi => exact .first hjs hi
  | above h => exact .above h

/-- When the search is back at its start, all that the targets tried so far lead
    to has been seen; so a target that has not been seen is not backed. -/
theorem not_backed (hg : g.Coherent) (h : Searching g start seen [⟨start, j :: js⟩])
    (hjs : j :: js <:+ g.targetsAt start) (hfree : seen.isFree j = true) : ¬ g.Backed start j := by
  rintro ⟨k, hbefore, hk, hkj⟩
  obtain ⟨before, hsplit⟩ := hjs
  have hnodup := hg.nodup_targets start
  rw [← hsplit] at hbefore hnodup
  have hkbefore : k ∈ before := mem_of_pair_sublist hnodup hbefore
  have hseen : ∀ {a}, ReflTransGen (fun a b => g.Edge a b ∧ b ≠ start) k a →
      a ≠ start ∧ seen.contains a = true := by
    intro a hka
    induction hka with
    | refl =>
      have hedge : g.Edge start k := by
        rw [Edge, ← hsplit]
        exact List.mem_append_left _ hkbefore
      rcases h.explored h.seen_start hedge with hk | ⟨f, hf, -, hkf⟩
      · exact hk
      · obtain rfl := List.mem_singleton.1 hf
        exact absurd rfl ((List.nodup_append.1 hnodup).2.2 k hkbefore k hkf)
    | tail _ hstep ih =>
      rcases h.explored ih.2 hstep.1 with hb | ⟨f, hf, hfa, -⟩
      · exact hb
      · obtain rfl := List.mem_singleton.1 hf
        exact absurd hfa.symm ih.1
  have hnew := ((IndexSet.isFree_eq_true_iff j).1 hfree).2
  exact absurd (hnew.symm.trans (hseen hkj).2) Bool.noConfusion

theorem enter (hg : g.Coherent) (h : Opening g start (⟨i, j :: js⟩ :: below))
    (hs : Searching g start seen (⟨i, j :: js⟩ :: below)) (hfree : seen.isFree j = true)
    (ks : List Nat) : Opening g start (⟨j, ks⟩ :: ⟨i, js⟩ :: below) := by
  cases h with
  | bottom hjs =>
    exact .first ((List.suffix_cons j js).trans hjs) (not_backed hg hs hjs hfree)
  | first hjs hi => exact .above (.first hjs hi)
  | above h => exact .above (.above h)

/-- The second position of a path is the first step. -/
theorem not_backed_of_pathOf {stack : List PathFrame} (h : Opening g start stack)
    (hk : (pathOf stack)[1]? = some k) : ¬ g.Backed start k := by
  induction h with
  | bottom _ => exact absurd hk (by simp [pathOf])
  | first _ hj =>
    obtain rfl := Option.some.inj hk
    exact hj
  | @above f f' f'' below _ ih =>
    refine ih ?_
    have hpath : pathOf (f :: f' :: f'' :: below) =
        pathOf (f' :: f'' :: below) ++ [f.position] := by
      simp [pathOf]
    rwa [hpath, List.getElem?_append_left (by simp [pathOf])] at hk

end Opening

theorem not_backed_of_searchCycle (hg : g.Coherent) {seen : IndexSet} {stack : List PathFrame}
    (h : Searching g start seen stack) (hopening : Opening g start stack) {cycle : List Nat}
    (hcycle : g.searchCycle start seen stack = some cycle) (hk : cycle[1]? = some k) :
    ¬ g.Backed start k := by
  fun_induction searchCycle g start seen stack with
  | case1 seen => cases hcycle
  | case2 seen i below ih =>
    cases below with
    | nil =>
      rw [searchCycle] at hcycle
      cases hcycle
    | cons f below => exact ih h.leave hopening.leave hcycle
  | case3 seen i js below =>
    cases hcycle
    exact hopening.pass.not_backed_of_pathOf hk
  | case4 seen i j js below hj hfree ih =>
    exact ih (h.enter hj hfree) (hopening.enter hg h hfree _) hcycle
  | case5 seen i j js below hj hfree ih =>
    refine ih (h.pass hj (IndexSet.contains_of_not_isFree ?_ (Bool.eq_false_iff.2 hfree)))
      hopening.pass hcycle
    rw [h.capacity]
    exact hg.target_lt (h.targets _ (List.mem_cons_self ..) j (List.mem_cons_self ..))

/-- A cycle that is found begins with a constraint whose target is not backed. -/
theorem exists_first_step (hg : g.Coherent) {cycle : List Nat}
    (hcycle : g.findCycle start = some cycle) :
    ∃ second rest, cycle ++ [start] = start :: second :: rest ∧ cycle[1]?.getD start = second ∧
      g.Edge start second ∧ ¬ g.Backed start second := by
  have h := isCycle_of_findCycle hg hcycle
  have hstart := h.lt_size (List.mem_of_mem_head? h.head)
  obtain ⟨rest, rfl⟩ := List.head?_eq_some_iff.1 h.head
  cases rest with
  | nil =>
    exact ⟨start, [], rfl, rfl, List.isChain_pair.1 h.chain, fun hbacked => hbacked.ne rfl⟩
  | cons second rest =>
    refine ⟨second, rest ++ [start], rfl, rfl, (List.isChain_cons_cons.1 h.chain).1, ?_⟩
    exact not_backed_of_searchCycle hg (searching_start hstart) (.bottom List.suffix_rfl) hcycle rfl

/-! ## The location of a report -/

/-- To order a graph reports what its cycles are. -/
theorem log_order (g : PrecedenceGraph) (log : Log CircularConstraint) :
    (g.order log).2.2 = (g.reportCycles log).2 := by
  unfold PrecedenceGraph.order
  split
  · next h => rw [h]
  · next h => rw [h]

/-- The location of a report is that of the statement by which its first id must
    come after its second one. -/
theorem Reflects.location_eq {ss : List Statement} (h : g.Reflects ss) (hsupported : g.Supported)
    {cycle : List Nat} (hcycle : g.findCycle start = some cycle) :
    ∃ first second rest, (g.circularConstraint start cycle).chain = first :: second :: rest ∧
      firstStated? ss first second = some (g.circularConstraint start cycle).location := by
  obtain ⟨second, rest, hchain, hsecond, hedge, hbacked⟩ := exists_first_step h.coherent hcycle
  refine ⟨g.idAt start, g.idAt second, rest.map g.idAt, ?_, ?_⟩
  · rw [circularConstraint, hchain, List.map_cons, List.map_cons]
  · cases hstated : g.statedAt? start second with
    | none => exact absurd (hsupported _ _ hedge hstated) hbacked
    | some location =>
      rw [← h.statedAt?_eq hedge.lt_size (h.coherent.target_lt hedge), circularConstraint, hsecond,
        constraintLocation, ← statedAt?, hstated, Option.getD_some]

/-- **The location of a reported cycle.**  Whenever the cycles of a graph are
    reported, be it for themselves or in want of an order, each report is located
    where it was first stated that its first id must come after its second one.
    What was only implied never begins a report, so its location is never made
    up, and nothing stated later changes what was first. -/
theorem location_reports_run (ops : List GraphOp) (log : Log CircularConstraint) :
    ∃ reports, ((run ops).reportCycles log).2.toList = log.toList ++ reports ∧
      ((run ops).order log).2.2.toList = log.toList ++ reports ∧
      ∀ c ∈ reports, ∃ first second rest, c.chain = first :: second :: rest ∧
        ∀ later, firstStated? (statements (ops ++ later)) first second = some c.location := by
  have h := reflects_run ops
  obtain ⟨cycles, hcycles⟩ := exists_cyclesReported (run ops) log (run ops).size
  refine ⟨_, hcycles.log, (congrArg Log.toList (log_order _ log)).trans hcycles.log, ?_⟩
  intro c hc
  obtain ⟨cycle, hcycle, rfl⟩ := List.mem_map.1 hc
  obtain ⟨first, second, rest, hchain, hfirst⟩ :=
    h.location_eq (supported_run ops) (hcycles.found cycle hcycle).2
  refine ⟨first, second, rest, hchain, fun later => ?_⟩
  rw [statements, List.filterMap_append]
  exact firstStated?_append_of_eq_some hfirst _

end InstallerLinker.PrecedenceGraph
