/-
  Installer linker — precedence graphs whose parts agree.

  A graph stores its ids, the position of each, and constraints between
  positions.  The operations keep these in agreement (`Coherent`).

  * `Edge` relates a position to those that it must come after, and `statedAt?`
    is where this was stated;
  * the lemmas on `place`, `stateAt` and `implyAt` say what each does to the ids,
    the edges and the places at which they were stated;
  * `Coherent.place`, `Coherent.stateAt` and `Coherent.implyAt` keep a graph
    coherent; all operations are made of these.
-/
import Mathlib.Data.List.Nodup
import Mathlib.Logic.Relation
import InstallerLinker.PrecedenceGraph.Basic

namespace InstallerLinker.PrecedenceGraph

variable {g : PrecedenceGraph}

/-! ## Positions and edges -/

/-- Position `i` must come after position `j`. -/
def Edge (g : PrecedenceGraph) (i j : Nat) : Prop := j ∈ g.targetsAt i

instance (i j : Nat) : Decidable (g.Edge i j) := inferInstanceAs (Decidable (j ∈ g.targetsAt i))

/-- Where it was stated that position `i` must come after position `j`. -/
def statedAt? (g : PrecedenceGraph) (i j : Nat) : Option Location :=
  (g.constraint? i j).bind (·.location)

theorem getElem?_ids (i : Nat) : g.ids[i]? = g.vertices[i]?.map (·.id) := by
  simp [ids]

theorem getElem?_ids_eq_some_iff {i : Nat} {id : String} :
    g.ids[i]? = some id ↔ i < g.size ∧ g.idAt i = id := by
  rw [getElem?_ids, idAt, size]
  by_cases hi : i < g.vertices.size
  · simp [hi]
  · simp [hi]

theorem idAt_mem_ids {i : Nat} (hi : i < g.size) : g.idAt i ∈ g.ids :=
  List.mem_of_getElem? (getElem?_ids_eq_some_iff.2 ⟨hi, rfl⟩)

theorem ids_eq_of_idAt_eq {g' : PrecedenceGraph} (hsize : g'.size = g.size)
    (hidAt : ∀ i, g'.idAt i = g.idAt i) : g'.ids = g.ids := by
  refine List.ext_getElem? fun i => Option.ext_iff.2 fun id => ?_
  rw [getElem?_ids_eq_some_iff, getElem?_ids_eq_some_iff, hsize, hidAt]

theorem constraintsAt_of_size_le {i : Nat} (hi : g.size ≤ i) : g.constraintsAt i = [] := by
  rw [constraintsAt, Array.getElem?_eq_none hi]

theorem Edge.lt_size {i j : Nat} (h : g.Edge i j) : i < g.size := by
  by_contra hi
  rw [Edge, targetsAt, constraintsAt_of_size_le (Nat.le_of_not_lt hi)] at h
  exact List.not_mem_nil h

/-- Constraints lead from positions of ids. -/
theorem lt_size_of_transGen {i j : Nat} (h : Relation.TransGen g.Edge i j) : i < g.size := by
  obtain ⟨_, hfirst, -⟩ := Relation.TransGen.head'_iff.1 h
  exact hfirst.lt_size

theorem constraint?_eq_none_iff {i j : Nat} : g.constraint? i j = none ↔ ¬ g.Edge i j := by
  simp [constraint?, Edge, targetsAt]

theorem target_of_constraint? {i j : Nat} {c : Constraint} (h : g.constraint? i j = some c) :
    c.target = j := by
  simpa using List.find?_some h

theorem edge_of_constraint? {i j : Nat} {c : Constraint} (h : g.constraint? i j = some c) :
    g.Edge i j := by
  by_contra hno
  rw [constraint?_eq_none_iff.2 hno] at h
  cases h

theorem edge_of_statedAt? {i j : Nat} {location : Location}
    (h : g.statedAt? i j = some location) : g.Edge i j := by
  obtain ⟨c, hc, -⟩ := Option.bind_eq_some_iff.1 h
  exact edge_of_constraint? hc

/-- The index and the constraints of a graph agree with its ids. -/
structure Coherent (g : PrecedenceGraph) : Prop where
  position?_iff : ∀ id i, g.position? id = some i ↔ i < g.size ∧ g.idAt i = id
  target_lt : ∀ {i j}, g.Edge i j → j < g.size
  nodup_targets : ∀ i, (g.targetsAt i).Nodup

theorem coherent_empty : (∅ : PrecedenceGraph).Coherent where
  position?_iff id i := by
    rw [position?_empty]
    exact ⟨nofun, fun h => absurd h.1 (Nat.not_lt_zero i)⟩
  target_lt h := absurd h.lt_size (Nat.not_lt_zero _)
  nodup_targets i := by
    rw [targetsAt, constraintsAt_of_size_le (Nat.zero_le i)]
    exact List.nodup_nil

namespace Coherent

theorem position?_idAt (h : g.Coherent) {i : Nat} (hi : i < g.size) :
    g.position? (g.idAt i) = some i :=
  (h.position?_iff _ _).2 ⟨hi, rfl⟩

theorem idAt_inj (h : g.Coherent) {i j : Nat} (hi : i < g.size) (hj : j < g.size)
    (hij : g.idAt i = g.idAt j) : i = j :=
  Option.some.inj ((h.position?_idAt hi).symm.trans (hij ▸ h.position?_idAt hj))

theorem mem_ids_iff (h : g.Coherent) {id : String} : id ∈ g.ids ↔ ∃ i, g.position? id = some i := by
  rw [List.mem_iff_getElem?]
  exact exists_congr fun i => by rw [getElem?_ids_eq_some_iff, h.position?_iff]

/-- Constraints lead to positions of ids. -/
theorem target_lt_of_transGen (h : g.Coherent) {i j : Nat} (hij : Relation.TransGen g.Edge i j) :
    j < g.size := by
  obtain ⟨_, -, hlast⟩ := Relation.TransGen.tail'_iff.1 hij
  exact h.target_lt hlast

theorem exists_position (h : g.Coherent) {id : String} (hid : id ∈ g.ids) :
    ∃ i, i < g.size ∧ g.idAt i = id := by
  obtain ⟨i, hi⟩ := h.mem_ids_iff.1 hid
  exact ⟨i, (h.position?_iff _ _).1 hi⟩

theorem nodup_ids (h : g.Coherent) : g.ids.Nodup := by
  refine List.nodup_iff_injective_get.2 fun i j hij => Fin.ext ?_
  have hget : ∀ k : Fin g.ids.length, k < g.size ∧ g.idAt k = g.ids.get k := fun k =>
    getElem?_ids_eq_some_iff.1 (List.getElem?_eq_getElem k.isLt)
  exact h.idAt_inj (hget i).1 (hget j).1 (by rw [(hget i).2, (hget j).2, hij])

end Coherent

/-! ## Ids -/

/-- The id is there, or it comes behind the others; then nothing else changes. -/
theorem Coherent.place_cases (h : g.Coherent) (id : String) :
    (∃ i, i < g.size ∧ g.idAt i = id ∧ g.place id = (g, i)) ∨
      (id ∉ g.ids ∧ (g.place id).2 = g.size ∧ (g.place id).1.size = g.size + 1 ∧
        (∀ i, (g.place id).1.idAt i = if i = g.size then id else g.idAt i) ∧
        (∀ i, (g.place id).1.constraintsAt i = g.constraintsAt i) ∧
        ∀ id', (g.place id).1.position? id' = if id = id' then some g.size else g.position? id') := by
  cases hid : g.position? id with
  | some i =>
    obtain ⟨hi, hidAt⟩ := (h.position?_iff _ _).1 hid
    exact Or.inl ⟨i, hi, hidAt, g.place_of_position?_eq_some hid⟩
  | none =>
    rw [g.place_of_position?_eq_none hid]
    refine Or.inr ⟨by simp [h.mem_ids_iff, hid], rfl, by simp [size], ?_, ?_, ?_⟩
    · intro i
      simp only [idAt, size, Array.getElem?_push]
      by_cases hi : i = g.vertices.size
      · simp [hi]
      · simp [hi]
    · intro i
      simp only [constraintsAt, Array.getElem?_push]
      by_cases hi : i = g.vertices.size
      · simp [hi]
      · simp [hi]
    · intro id'
      simp [position?, Std.TreeMap.getElem?_insert]

theorem mem_ids_place (h : g.Coherent) {id id' : String} :
    id' ∈ (g.place id).1.ids ↔ id' ∈ g.ids ∨ id' = id := by
  show id' ∈ (g.addId id).ids ↔ _
  rw [g.ids_addId]
  cases hid : g.contains id with
  | false => simp
  | true =>
    have hmem : id ∈ g.ids := h.mem_ids_iff.2 (Option.isSome_iff_exists.1 hid)
    simp only [if_true]
    exact ⟨Or.inl, fun h' => h'.elim (fun h' => h') fun h' => h' ▸ hmem⟩

theorem constraintsAt_place (h : g.Coherent) (id : String) (i : Nat) :
    (g.place id).1.constraintsAt i = g.constraintsAt i := by
  rcases h.place_cases id with ⟨_, -, -, he⟩ | ⟨-, -, -, -, hc, -⟩
  · rw [he]
  · exact hc i

theorem size_le_size_place (h : g.Coherent) (id : String) : g.size ≤ (g.place id).1.size := by
  rcases h.place_cases id with ⟨_, -, -, he⟩ | ⟨-, -, hsize, -⟩
  · exact Nat.le_of_eq (by rw [he])
  · exact hsize ▸ Nat.le_succ _

theorem idAt_place (h : g.Coherent) (id : String) {i : Nat} (hi : i < g.size) :
    (g.place id).1.idAt i = g.idAt i := by
  rcases h.place_cases id with ⟨_, -, -, he⟩ | ⟨-, -, -, hidAt, -⟩
  · rw [he]
  · rw [hidAt, if_neg (Nat.ne_of_lt hi)]

theorem placed_lt_size (h : g.Coherent) (id : String) : (g.place id).2 < (g.place id).1.size := by
  rcases h.place_cases id with ⟨_, hi, -, he⟩ | ⟨-, hpos, hsize, -⟩
  · rwa [he]
  · rw [hpos, hsize]
    exact Nat.lt_succ_self _

theorem idAt_placed (h : g.Coherent) (id : String) :
    (g.place id).1.idAt (g.place id).2 = id := by
  rcases h.place_cases id with ⟨_, -, hidAt, he⟩ | ⟨-, hpos, -, hidAt, -⟩
  · rwa [he]
  · rw [hpos, hidAt, if_pos rfl]

theorem Coherent.place (h : g.Coherent) (id : String) : (g.place id).1.Coherent where
  position?_iff id' i := by
    rcases h.place_cases id with ⟨_, -, -, he⟩ | ⟨hnew, -, hsize, hidAt, -, hpos⟩
    · rw [he]
      exact h.position?_iff id' i
    · rw [hpos, hsize, hidAt, Nat.lt_succ_iff_lt_or_eq]
      by_cases hid : id = id'
      · subst hid
        rw [if_pos rfl, Option.some.injEq]
        constructor
        · rintro rfl
          exact ⟨Or.inr rfl, if_pos rfl⟩
        · rintro ⟨hi | rfl, hi'⟩
          · rw [if_neg (Nat.ne_of_lt hi)] at hi'
            exact absurd (h.mem_ids_iff.2 ⟨i, (h.position?_iff _ _).2 ⟨hi, hi'⟩⟩) hnew
          · rfl
      · rw [if_neg hid, h.position?_iff]
        constructor
        · rintro ⟨hi, hi'⟩
          exact ⟨Or.inl hi, by rwa [if_neg (Nat.ne_of_lt hi)]⟩
        · rintro ⟨hi | rfl, hi'⟩
          · exact ⟨hi, by rwa [if_neg (Nat.ne_of_lt hi)] at hi'⟩
          · exact absurd ((if_pos rfl).symm.trans hi') hid
  target_lt {i j} hij := by
    rw [Edge, targetsAt, constraintsAt_place h] at hij
    exact Nat.lt_of_lt_of_le (h.target_lt hij) (size_le_size_place h id)
  nodup_targets i := by
    rw [targetsAt, constraintsAt_place h]
    exact h.nodup_targets i

/-! ## Constraints -/

section
variable {i j : Nat} (hi : i < g.size) (location : Location)
include hi

theorem constraintsAt_updateAt_of_lt (f : List Constraint → List Constraint) (k : Nat) :
    (g.updateAt i f).constraintsAt k = if i = k then f (g.constraintsAt k) else g.constraintsAt k := by
  rw [constraintsAt_updateAt]
  by_cases hik : i = k
  · rw [if_pos ⟨hik, hik ▸ hi⟩, if_pos hik]
  · rw [if_neg (fun h => hik h.1), if_neg hik]

omit hi in
theorem find?_map_locate (cs : List Constraint) (m : Nat) :
    (cs.map fun c => if c.target == j then ⟨j, some location⟩ else c).find? (·.target == m) =
      (cs.find? (·.target == m)).map fun c => if c.target == j then ⟨j, some location⟩ else c := by
  have htarget : ((fun c : Constraint => c.target == m) ∘ fun c =>
      if c.target == j then ⟨j, some location⟩ else c) = fun c => c.target == m := by
    funext c
    by_cases hc : c.target = j
    · simp [hc]
    · simp [hc]
  rw [List.find?_map, htarget]

/-- What the constraint from `i` to `j` becomes when it is stated. -/
theorem constraint?_stateAt (k m : Nat) :
    (g.stateAt i j location).1.constraint? k m =
      if i = k ∧ j = m then some ⟨j, some ((g.statedAt? i j).getD location)⟩
      else g.constraint? k m := by
  unfold stateAt
  split
  · next hnone =>
    rw [constraint?, constraintsAt_updateAt_of_lt hi]
    by_cases hk : i = k
    · subst hk
      rw [if_pos rfl, List.find?_append, ← constraint?]
      by_cases hm : j = m
      · subst hm
        simp [hnone, statedAt?]
      · simp [hm]
    · simp [hk, constraint?]
  · next t l hsome =>
    by_cases hkm : i = k ∧ j = m
    · obtain ⟨rfl, rfl⟩ := hkm
      have ht : t = j := target_of_constraint? hsome
      simp [hsome, statedAt?, ht]
    · rw [if_neg hkm]
  · next t hsome =>
    have ht : t = j := target_of_constraint? hsome
    rw [constraint?, constraintsAt_updateAt_of_lt hi]
    by_cases hk : i = k
    · subst hk
      rw [if_pos rfl, find?_map_locate, ← constraint?]
      by_cases hm : j = m
      · subst hm
        simp [hsome, statedAt?, ht]
      · rw [if_neg (fun h => hm h.2)]
        cases hc : g.constraint? i m with
        | none => rfl
        | some c =>
          have hcm : c.target ≠ j := fun h => hm (h.symm.trans (target_of_constraint? hc))
          simp [hcm]
    · simp [hk, constraint?]

theorem statedAt?_stateAt (k m : Nat) :
    (g.stateAt i j location).1.statedAt? k m =
      if i = k ∧ j = m then some ((g.statedAt? i j).getD location) else g.statedAt? k m := by
  rw [statedAt?, constraint?_stateAt hi]
  split
  · rfl
  · rfl

theorem targetsAt_stateAt (k : Nat) :
    (g.stateAt i j location).1.targetsAt k =
      if i = k ∧ ¬ g.Edge i j then g.targetsAt k ++ [j] else g.targetsAt k := by
  unfold stateAt
  split
  · next hnone =>
    rw [targetsAt, constraintsAt_updateAt_of_lt hi]
    have hno := constraint?_eq_none_iff.1 hnone
    by_cases hk : i = k
    · simp [hk, hk ▸ hno, targetsAt]
    · simp [hk, targetsAt]
  · next hsome =>
    rw [if_neg (fun h => h.2 (edge_of_constraint? hsome))]
  · next hsome =>
    rw [if_neg (fun h => h.2 (edge_of_constraint? hsome)), targetsAt, constraintsAt_updateAt_of_lt hi]
    by_cases hk : i = k
    · rw [if_pos hk, List.map_map, targetsAt]
      refine List.map_congr_left fun c _ => ?_
      by_cases hc : c.target = j
      · simp [hc]
      · simp [hc]
    · rw [if_neg hk, targetsAt]

/-- A constraint that has no place after a statement was there before, without one. -/
theorem edge_of_unstated {k m : Nat} (hkm : (g.stateAt i j location).1.Edge k m)
    (hstated : (g.stateAt i j location).1.statedAt? k m = none) :
    g.Edge k m ∧ g.statedAt? k m = none := by
  rw [statedAt?_stateAt hi] at hstated
  rw [Edge, targetsAt_stateAt hi] at hkm
  split at hstated
  · cases hstated
  · next hnew =>
    refine ⟨?_, hstated⟩
    split at hkm
    · next hik =>
      rcases List.mem_append.1 hkm with hkm | hkm
      · exact hkm
      · exact absurd ⟨hik.1, (List.mem_singleton.1 hkm).symm⟩ hnew
    · exact hkm

theorem constraintsAt_implyAt (js : List Nat) (k : Nat) :
    (g.implyAt i js).constraintsAt k =
      if i = k then g.constraintsAt k ++ js.map (⟨·, none⟩) else g.constraintsAt k :=
  constraintsAt_updateAt_of_lt hi _ k

theorem targetsAt_implyAt (js : List Nat) (k : Nat) :
    (g.implyAt i js).targetsAt k = if i = k then g.targetsAt k ++ js else g.targetsAt k := by
  rw [targetsAt, constraintsAt_implyAt hi]
  by_cases hk : i = k
  · simp [hk, targetsAt, Function.comp_def]
  · simp [hk, targetsAt]

/-- What is merely implied was not stated anywhere. -/
theorem statedAt?_implyAt (js : List Nat) (k m : Nat) :
    (g.implyAt i js).statedAt? k m = g.statedAt? k m := by
  rw [statedAt?, constraint?, constraintsAt_implyAt hi]
  by_cases hk : i = k
  · rw [if_pos hk, List.find?_append, ← constraint?, statedAt?]
    cases g.constraint? k m with
    | some c => rfl
    | none =>
      cases hfind : (js.map (⟨·, none⟩ : Nat → Constraint)).find? (·.target == m) with
      | none => rfl
      | some c =>
        obtain ⟨_, -, rfl⟩ := List.mem_map.1 (List.mem_of_find?_eq_some hfind)
        rfl
  · rw [if_neg hk, ← constraint?, statedAt?]

end

theorem stateAt_same (i j : Nat) (location : Location) :
    (g.stateAt i j location).1.size = g.size ∧
      (∀ k, (g.stateAt i j location).1.idAt k = g.idAt k) ∧
      ∀ id, (g.stateAt i j location).1.position? id = g.position? id := by
  unfold stateAt
  split <;> simp

theorem snd_stateAt (i j : Nat) (location : Location) :
    (g.stateAt i j location).2 = (g.statedAt? i j).isNone := by
  unfold stateAt statedAt?
  split
  · next h => simp [h]
  · next h => simp [h]
  · next h => simp [h]

theorem Coherent.stateAt (h : g.Coherent) {i j : Nat} (hi : i < g.size) (hj : j < g.size)
    (location : Location) : (g.stateAt i j location).1.Coherent := by
  obtain ⟨hsize, hidAt, hpos⟩ := stateAt_same (g := g) i j location
  refine ⟨?_, ?_, ?_⟩
  · intro id k
    rw [hpos, hsize, hidAt]
    exact h.position?_iff id k
  · intro k m hkm
    rw [hsize]
    rw [Edge, targetsAt_stateAt hi] at hkm
    split at hkm
    · rcases List.mem_append.1 hkm with hkm | hkm
      · exact h.target_lt hkm
      · exact List.mem_singleton.1 hkm ▸ hj
    · exact h.target_lt hkm
  · intro k
    rw [targetsAt_stateAt hi]
    split
    · next hk =>
      have hnew : j ∉ g.targetsAt k := fun hmem => hk.2 (hk.1 ▸ hmem)
      rw [← List.concat_eq_append]
      exact (h.nodup_targets k).concat hnew
    · exact h.nodup_targets k

theorem Coherent.implyAt (h : g.Coherent) {i : Nat} (hi : i < g.size) {js : List Nat}
    (hlt : ∀ j ∈ js, j < g.size) (hnodup : js.Nodup) (hnew : ∀ j ∈ js, ¬ g.Edge i j) :
    (g.implyAt i js).Coherent := by
  refine ⟨?_, ?_, ?_⟩
  · intro id k
    rw [PrecedenceGraph.implyAt, position?_updateAt, size_updateAt, idAt_updateAt]
    exact h.position?_iff id k
  · intro k m hkm
    rw [PrecedenceGraph.implyAt, size_updateAt]
    rw [Edge, targetsAt_implyAt hi] at hkm
    split at hkm
    · exact (List.mem_append.1 hkm).elim h.target_lt (hlt m)
    · exact h.target_lt hkm
  · intro k
    rw [targetsAt_implyAt hi]
    split
    · next hk =>
      subst hk
      refine List.nodup_append.2 ⟨h.nodup_targets i, hnodup, ?_⟩
      rintro a ha b hb rfl
      exact hnew a hb ha
    · exact h.nodup_targets k

theorem addConstraint_eq (g : PrecedenceGraph) (id first : String) (location : Location) :
    g.addConstraint id first location =
      ((g.place id).1.place first).1.stateAt (g.place id).2 ((g.place id).1.place first).2
        location := rfl

theorem mem_ids_addConstraint (h : g.Coherent) {id first id' : String} {location : Location} :
    id' ∈ (g.addConstraint id first location).1.ids ↔ id' ∈ g.ids ∨ id' = id ∨ id' = first := by
  obtain ⟨hsize, hidAt, -⟩ := stateAt_same (g := ((g.place id).1.place first).1) (g.place id).2
    ((g.place id).1.place first).2 location
  rw [addConstraint_eq, ids_eq_of_idAt_eq hsize hidAt, mem_ids_place (h.place id), mem_ids_place h,
    or_assoc]

end InstallerLinker.PrecedenceGraph
