/-
  Installer linker — sections in another order.

  The order of the sections decides which section a link starts from and which
  definition owns a name.  To change the order of sections that compete for neither
  changes nothing but the order of some messages.

  * `KeepsPriority` says that sections that compete stand in the same order as
    before;
  * `KeepsPriority.definitionsNamed_eq`: the definitions of each name are the same,
    in the same order;
  * `link_rearranged` is the result.
-/
import InstallerLinker.Proofs.Link.Conflicts
import InstallerLinker.Proofs.Link.Relocation

namespace InstallerLinker

/-- In the order `picks`, two sections from which a link can start stand as they
    did before, and so do two sections that define the same name. -/
structure KeepsPriority (sections : Array Section) (picks : List SectionIndex) : Prop where
  entries : picks.Pairwise fun i j => IsEntryAt sections i → IsEntryAt sections j → i < j
  names : picks.Pairwise fun i j => ∀ d ∈ definitionsAt sections i,
    ∀ d' ∈ definitionsAt sections j, d.name = d'.name → i < j

/-- Positions of which any two stand as they did before are not rearranged. -/
theorem filter_eq_filter_range {picks : List SectionIndex} {n : Nat}
    (hperm : picks.Perm (List.range n)) {p : SectionIndex → Bool}
    (h : picks.Pairwise fun i j => p i = true → p j = true → i < j) :
    picks.filter p = (List.range n).filter p := by
  have hrange : ((List.range n).filter p).Pairwise (· < ·) := List.pairwise_lt_range.filter p
  refine (hperm.filter p).eq_of_pairwise ?_ (List.pairwise_filter.2 h) hrange
  intro i j _ _ hij hji
  exact absurd hji (Nat.lt_asymm hij)

section
variable {sections : Array Section} {picks : List SectionIndex}

theorem selects_of_perm (hperm : picks.Perm (List.range sections.size)) : Selects sections picks :=
  ⟨hperm.nodup_iff.2 List.nodup_range, fun _ hi => List.mem_range.1 (hperm.mem_iff.1 hi)⟩

namespace KeepsPriority
variable (h : KeepsPriority sections picks) (hperm : picks.Perm (List.range sections.size))
include h hperm

theorem filter_isEntryAt :
    picks.filter (fun i => decide (IsEntryAt sections i)) =
      (List.range sections.size).filter fun i => decide (IsEntryAt sections i) := by
  refine filter_eq_filter_range hperm (h.entries.imp fun hij hi hj => ?_)
  exact hij (of_decide_eq_true hi) (of_decide_eq_true hj)

theorem definitionsNamed_eq (name : String) :
    definitionsNamed name (picks.flatMap (definitionsAt sections)) =
      definitionsNamed name (definitionsOf sections.toList) := by
  let defines (i : SectionIndex) : Bool := (definitionsAt sections i).any (·.name == name)
  have hnil : ∀ (l : List SectionIndex), ∀ i ∈ l, defines i = false →
      definitionsNamed name (definitionsAt sections i) = [] := by
    intro l i _ hi
    exact List.filter_eq_nil_iff.2 (List.any_eq_false.1 hi)
  have hfilter : picks.filter defines = (List.range sections.size).filter defines := by
    refine filter_eq_filter_range hperm (h.names.imp fun hij hi hj => ?_)
    obtain ⟨d, hd, hname⟩ := List.any_eq_true.1 hi
    obtain ⟨d', hd', hname'⟩ := List.any_eq_true.1 hj
    exact hij d hd d' hd' ((beq_iff_eq.1 hname).trans (beq_iff_eq.1 hname').symm)
  rw [definitionsOf_eq_flatMap, definitionsNamed, definitionsNamed, List.filter_flatMap,
    List.filter_flatMap]
  calc picks.flatMap (fun i => definitionsNamed name (definitionsAt sections i))
      = (picks.filter defines).flatMap _ := (flatMap_filter_of_eq_nil (hnil picks)).symm
    _ = ((List.range sections.size).filter defines).flatMap _ := by rw [hfilter]
    _ = _ := flatMap_filter_of_eq_nil (hnil _)

/-- The sections from which a link can start are the same, in the same order. -/
theorem filter_isEntry : (sectionsAt sections picks).toList.filter (·.kind.isEntry) =
    sections.toList.filter (·.kind.isEntry) := by
  have hmap := (selects_of_perm hperm).map_some_filter
  have hmap' := (selects_range sections).map_some_filter
  rw [h.filter_isEntryAt hperm, ← hmap', sectionsAt_range] at hmap
  exact List.map_injective_iff.2 (fun _ _ => Option.some.inj) hmap

theorem perm_repetitions (allowIdentical : Bool) :
    (repetitions allowIdentical (definitionsOf (sectionsAt sections picks).toList)).Perm
      (repetitions allowIdentical (definitionsOf sections.toList)) := by
  rw [← repetitions_map_move (pickAt picks), (selects_of_perm hperm).map_move_definitionsOf]
  exact repetitions_perm (h.definitionsNamed_eq hperm)

/-- Either no link has an entry, or both have corresponding ones. -/
theorem entry_cases :
    (sections.toList.findIdx? (·.kind.isEntry) = none ∧
        (sectionsAt sections picks).toList.findIdx? (·.kind.isEntry) = none) ∨
      ∃ entry entry', sections.toList.findIdx? (·.kind.isEntry) = some entry ∧
        (sectionsAt sections picks).toList.findIdx? (·.kind.isEntry) = some entry' ∧
        picks[entry']? = some entry := by
  have hfind := (selects_of_perm hperm).findIdx?_bind
  rw [← List.head?_filter, h.filter_isEntryAt hperm, List.head?_filter,
    find?_isEntryAt_range] at hfind
  cases hentry : sections.toList.findIdx? (·.kind.isEntry) with
  | none =>
    refine Or.inl ⟨rfl, ?_⟩
    rw [hentry, Option.bind_eq_none_iff] at hfind
    refine Option.eq_none_iff_forall_ne_some.2 fun entry' hentry' => ?_
    have hlt : entry' < (sectionsAt sections picks).size :=
      (List.findIdx?_eq_some_iff_getElem.1 hentry').1
    rw [(selects_of_perm hperm).size_sectionsAt] at hlt
    exact Nat.not_lt.2 (List.getElem?_eq_none_iff.1 (hfind entry' hentry')) hlt
  | some entry =>
    rw [hentry, Option.bind_eq_some_iff] at hfind
    obtain ⟨entry', hentry', hpick⟩ := hfind
    exact Or.inr ⟨entry, entry', rfl, hentry', hpick⟩

/-- Both links have no result, or results that agree; the messages of the one are
    those of the other, except for the order of the warnings about repeated rows
    and of the collisions. -/
theorem link_cases (settings : LinkSettings) (log : Log LinkIssue) :
    Option.Rel (Linkage.Agrees picks) (link settings sections log).1
        (link settings (sectionsAt sections picks) log).1 ∧
      ∃ others collisions collisions',
        (link settings sections log).2.toList = log.toList ++
          (surveyIssues settings.allowIdenticalRows settings.expectedKind sections.toList ++
            (others ++ collisions)) ∧
        (link settings (sectionsAt sections picks) log).2.toList = log.toList ++
          (surveyIssues settings.allowIdenticalRows settings.expectedKind
            (sectionsAt sections picks).toList ++ (others ++ collisions')) ∧
        collisions'.Perm collisions ∧
        (((definitionsOf sections.toList).map (·.name)).Nodup → collisions = []) := by
  have hselects := selects_of_perm hperm
  rcases h.entry_cases hperm with ⟨hentry, hentry'⟩ | ⟨entry, entry', hentry, hentry', hpick⟩
  · obtain ⟨hnone, hlog⟩ := link_of_no_entry settings hentry log
    obtain ⟨hnone', hlog'⟩ := link_of_no_entry settings hentry' log
    rw [hnone, hnone', hlog, hlog']
    refine ⟨.none, [.missingEntrySection settings.expectedKind], [], [], ?_, ?_, .refl _,
      fun _ => rfl⟩
    · rw [List.append_assoc, List.append_nil]
    · rw [List.append_assoc, List.append_nil]
  · obtain ⟨symbols, reach, hsymbols, hreach, hresult, hlog⟩ := link_of_entry settings hentry log
    obtain ⟨symbols', reach', hsymbols', hreach', hresult', hlog'⟩ :=
      link_of_entry settings hentry' log
    have hnamed := h.definitionsNamed_eq hperm
    have hr : Scope.Renumbers (pickAt picks)
        (settings.scope (sectionsAt sections picks) symbols' entry')
        (settings.scope sections symbols entry) := by
      refine hselects.renumbers hsymbols hsymbols' hpick fun i _ r _ _ => ?_
      rw [← head?_definitionsNamed, ← head?_definitionsNamed, hnamed]
    have hagrees := hselects.agrees hpick hr hreach hreach'
    have hcollisions := hsymbols.collisions_perm hsymbols'
      (hselects.map_move_definitionsOf ▸ hnamed) settings.roles
      fun d hd => hselects.includes_eq hpick hr hreach hreach' (sectionIndex_lt_size hd)
    rw [hresult, hresult', hlog, hlog', hagrees.issues]
    refine ⟨.some hagrees, _, _, _, rfl, rfl, hcollisions, fun hnodup => ?_⟩
    rw [contestedSymbols_eq_nil hsymbols hnodup]
    rfl

end KeepsPriority

/-- Where all names differ and there is one entry at most, no sections compete. -/
theorem keepsPriority_of_nodup (hperm : picks.Perm (List.range sections.size))
    (hnames : ((definitionsOf sections.toList).map (·.name)).Nodup)
    (hentry : ∀ i j, IsEntryAt sections i → IsEntryAt sections j → i = j) :
    KeepsPriority sections picks where
  entries := (selects_of_perm hperm).nodup.imp fun hne hi hj => absurd (hentry _ _ hi hj) hne
  names := by
    have hnodup : (picks.flatMap fun i => (definitionsAt sections i).map (·.name)).Nodup := by
      rw [definitionsOf_eq_flatMap, List.map_flatMap] at hnames
      exact (hperm.flatMap_right _).nodup_iff.2 hnames
    refine (List.nodup_flatMap.1 hnodup).2.imp fun hdisjoint d hd d' hd' hname => ?_
    exact absurd (hname ▸ List.mem_map_of_mem hd') (hdisjoint (List.mem_map_of_mem hd))

end

/-- **Rearrangement.**  To link the sections in another order, in which those that
    compete stand as they did before, gives a result that agrees with that of the
    link, or none if the link has none, and the same messages up to their order.
    Where all names differ and there is one entry at most, this is any order, and
    the messages come in the same order as well. -/
theorem link_rearranged (settings : LinkSettings) (sections : Array Section)
    (picks : List SectionIndex) (log : Log LinkIssue)
    (hperm : picks.Perm (List.range sections.size)) :
    (KeepsPriority sections picks →
      Option.Rel (Linkage.Agrees picks) (link settings sections log).1
          (link settings (sectionsAt sections picks) log).1 ∧
        (link settings (sectionsAt sections picks) log).2.toList.Perm
          (link settings sections log).2.toList) ∧
    (((definitionsOf sections.toList).map (·.name)).Nodup →
      (∀ i j, IsEntryAt sections i → IsEntryAt sections j → i = j) →
        KeepsPriority sections picks ∧
          (link settings (sectionsAt sections picks) log).2 = (link settings sections log).2) := by
  refine ⟨fun h => ?_, fun hnames hentry => ?_⟩
  · obtain ⟨hagrees, others, collisions, collisions', hlog, hlog', hcollisions, -⟩ :=
      h.link_cases hperm settings log
    refine ⟨hagrees, ?_⟩
    rw [hlog, hlog']
    have hsurvey := surveyIssues_perm settings.expectedKind (h.filter_isEntry hperm)
      (h.perm_repetitions hperm settings.allowIdenticalRows)
    exact (hsurvey.append (hcollisions.append_left others)).append_left log.toList
  · have h := keepsPriority_of_nodup hperm hnames hentry
    obtain ⟨-, others, collisions, collisions', hlog, hlog', hcollisions, hnil⟩ :=
      h.link_cases hperm settings log
    obtain rfl := hnil hnames
    obtain rfl := hcollisions.eq_nil
    have hrep := repetitions_eq_nil settings.allowIdenticalRows hnames
    have hrep' := h.perm_repetitions hperm settings.allowIdenticalRows
    rw [hrep, List.perm_nil] at hrep'
    have hsurvey := surveyIssues_eq_filter settings.expectedKind hrep
    have hsurvey' := surveyIssues_eq_filter settings.expectedKind hrep'
    rw [filter_surveyIssues_congr _ _ (h.filter_isEntry hperm), ← hsurvey] at hsurvey'
    refine ⟨h, Log.ext ?_⟩
    rw [hlog, hlog', hsurvey']

/-- A product and four fragments that it needs; two pairs of them compete for a
    component each. -/
def competingPairs : Array Section :=
  #[componentSection "main" .product ["x", "y", "u", "v"] [],
    componentSection "left" .fragment [] ["x", "a"],
    componentSection "right" .fragment [] ["y", "b"],
    componentSection "left again" .fragment [] ["u", "a"],
    componentSection "right again" .fragment [] ["v", "b"]]

/-- A fragment and the product that needs it. -/
def separatePair : Array Section :=
  #[componentSection "left" .fragment ["missing"] ["x"],
    componentSection "main" .product ["x"] ["a"]]

theorem link_rearranged_pairs :
    (KeepsPriority competingPairs [2, 0, 1, 4, 3] ∧
      Option.Rel (Linkage.Agrees [2, 0, 1, 4, 3]) (link {} competingPairs ∅).1
          (link {} (sectionsAt competingPairs [2, 0, 1, 4, 3]) ∅).1 ∧
        (link {} (sectionsAt competingPairs [2, 0, 1, 4, 3]) ∅).2.toList.Perm
          (link {} competingPairs ∅).2.toList) ∧
    (link {} (sectionsAt separatePair [1, 0]) ∅).2 = (link {} separatePair ∅).2 := by
  have htwo : [2, 0, 1, 4, 3].Perm (List.range competingPairs.size) := by decide
  have hkeeps : KeepsPriority competingPairs [2, 0, 1, 4, 3] :=
    ⟨by decide +kernel, by decide +kernel⟩
  refine ⟨⟨hkeeps, (link_rearranged {} competingPairs _ ∅ htwo).1 hkeeps⟩, ?_⟩
  refine ((link_rearranged {} separatePair [1, 0] ∅ (by decide)).2 (by decide +kernel) ?_).2
  intro i j hi hj
  have hlt : ∀ i, IsEntryAt separatePair i → i < 2 := fun i ⟨s, hs, _⟩ =>
    (Array.getElem?_eq_some_iff.1 hs).1
  have hone : ∀ i < 2, ∀ j < 2, IsEntryAt separatePair i → IsEntryAt separatePair j → i = j := by
    decide +kernel
  exact hone i (hlt i hi) j (hlt j hj) hi hj

end InstallerLinker
