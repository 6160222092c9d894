/-
  Installer linker — a search reaches what can be reached.

  * `includes_reachFrom_iff`: the sections that a search visits are those that
    `ReferenceGraph.Reaches` gives, on any graph, cyclic or not;
  * `mem_dangling_iff` does the same for the references that lead nowhere;
  * `reachFrom_exact` puts the marks and the list of a search together.
-/
import InstallerLinker.Proofs.Reach.Passes

namespace InstallerLinker.Scope

variable (g : Scope) (entry : SectionIndex)

theorem consistent_reachFrom : (g.reachFrom entry).sections.Consistent := by
  obtain ⟨read, h⟩ := exists_passes_reachFrom g entry
  exact h.accounted.consistent

variable {g entry}

theorem includes_entry (h : entry < g.sections.size) : (g.reachFrom entry).includes entry = true := by
  obtain ⟨read, hp⟩ := exists_passes_reachFrom g entry
  rw [Reach.includes, ← (consistent_reachFrom g entry).mem_iff]
  refine hp.start_prefix.subset ?_
  rcases start_cases g entry with ⟨hle, -⟩ | ⟨s, -, hs, -⟩
  · exact absurd h (Nat.not_lt.2 hle)
  · rw [hs, IndexSet.toList_insert_empty h]
    exact List.mem_singleton_self entry

/-- No hop leads out of the sections visited. -/
theorem includes_of_hop {i j : SectionIndex} (hi : (g.reachFrom entry).includes i = true)
    (hop : g.graph.Hop i j) : (g.reachFrom entry).includes j = true := by
  obtain ⟨read, hp⟩ := exists_passes_reachFrom g entry
  obtain ⟨r, hr, hj⟩ := hop_iff.1 hop
  exact hp.contains_of_leadsTo (hp.mem_read_iff.2 ⟨hi, hr⟩) hj

theorem includes_reachFrom_iff {i : SectionIndex} :
    (g.reachFrom entry).includes i = true ↔ g.graph.Reaches entry i := by
  constructor
  · obtain ⟨read, hp⟩ := exists_passes_reachFrom g entry
    exact hp.accounted.reaches i
  · intro h
    exact h.mem_of_closed (includes_entry h.1) fun _ _ => includes_of_hop

theorem lt_size_of_mem_sections {i : SectionIndex} (h : i ∈ (g.reachFrom entry).sections.toList) :
    i < g.sections.size :=
  (includes_reachFrom_iff.1 (((consistent_reachFrom g entry).mem_iff i).1 h)).lt_size

/-- The references that lead nowhere are those that sections visited hold. -/
theorem mem_dangling_iff {d : DanglingReference} :
    d ∈ (g.reachFrom entry).dangling.toList ↔
      g.graph.Reaches entry d.sectionIndex ∧ d.reference ∈ g.referencesAt d.sectionIndex ∧
        g.dangles d.reference = true := by
  obtain ⟨read, hp⟩ := exists_passes_reachFrom g entry
  rw [← includes_reachFrom_iff, ← and_assoc, ← hp.mem_read_iff, hp.dangling]
  simp only [List.mem_map, List.mem_filter]
  constructor
  · rintro ⟨p, hp, rfl⟩
    exact hp
  · exact fun h => ⟨(d.sectionIndex, d.reference), h, rfl⟩

/-- **Exactness of reachability.**  A section is visited if and only if there is
    one at the position and hops lead to it from the entry; the list of a search
    holds the sections visited, each once, and begins with the entry. -/
theorem reachFrom_exact (g : Scope) (entry : SectionIndex) :
    (∀ i, (g.reachFrom entry).includes i = true ↔
        i < g.sections.size ∧ g.graph.Reaches entry i) ∧
      (∀ i, i ∈ (g.reachFrom entry).sections.toList ↔ (g.reachFrom entry).includes i = true) ∧
      (g.reachFrom entry).sections.toList.Nodup ∧
      ∃ later, (g.reachFrom entry).sections.toList =
        if entry < g.sections.size then entry :: later else [] := by
  have hc := consistent_reachFrom g entry
  refine ⟨fun i => ?_, hc.mem_iff, hc.nodup, ?_⟩
  · rw [includes_reachFrom_iff]
    exact ⟨fun h => ⟨h.lt_size, h⟩, fun h => h.2⟩
  · obtain ⟨read, hp⟩ := exists_passes_reachFrom g entry
    obtain ⟨later, hlater⟩ := hp.start_prefix
    refine ⟨later, ?_⟩
    rcases start_cases g entry with ⟨hle, -⟩ | ⟨s, hs, hstart, -⟩
    · rw [if_neg (Nat.not_lt.2 hle), List.eq_nil_iff_forall_not_mem]
      intro i hi
      have := includes_reachFrom_iff.1 ((hc.mem_iff i).1 hi)
      exact absurd this.1 (Nat.not_lt.2 hle)
    · have hlt := (Array.getElem?_eq_some_iff.1 hs).1
      rw [← hlater, hstart, if_pos hlt, IndexSet.toList_insert_empty hlt]
      rfl

end InstallerLinker.Scope
