/-
  Installer linker — sections that are not reached can be left out.

  A link names the sections that the output is made of.  To link these alone gives
  the same result: what owns a name that a section reached asks for is reached as
  well, so that no definition that matters is left out with the others.

  * `Linkage.kept` are the positions of the sections reached, in their own order;
  * `Linkage.find?_isEntryAt_kept` and `Linkage.find?_definitionsAt_kept`: the entry
    is kept, and so are the owners of the names that sections kept ask for;
  * `link_kept` is the result.
-/
import InstallerLinker.Proofs.Link.Conflicts
import InstallerLinker.Proofs.Link.Selection

namespace InstallerLinker

/-! ## The sections reached -/

/-- The positions of the sections reached, in their own order. -/
def Linkage.kept (l : Linkage) : List SectionIndex :=
  (List.range l.sections.size).filter (l.includes ·)

theorem Linkage.mem_kept_iff {l : Linkage} {i : SectionIndex} :
    i ∈ l.kept ↔ i < l.sections.size ∧ l.includes i = true := by
  simp [kept]

theorem Linkage.selects_kept (l : Linkage) : Selects l.sections l.kept :=
  ⟨List.nodup_range.filter _, fun _ hi => (mem_kept_iff.1 hi).1⟩

/-- What is found and passes a test is found among what passes the test. -/
theorem find?_filter_of_find? {α : Type} {p q : α → Bool} {l : List α} {a : α}
    (h : l.find? q = some a) (hp : p a = true) : (l.filter p).find? q = some a := by
  obtain ⟨hq, before, after, rfl, hbefore⟩ := List.find?_eq_some_iff_append.1 h
  rw [List.filter_append, List.filter_cons_of_pos hp]
  refine List.find?_eq_some_iff_append.2 ⟨hq, before.filter p, after.filter p, rfl, fun b hb => ?_⟩
  exact hbefore b (List.mem_of_mem_filter hb)

theorem flatMap_definitionsAt_filter (sections : Array Section) (p : SectionIndex → Bool) :
    ((List.range sections.size).filter p).flatMap (definitionsAt sections) =
      (definitionsOf sections.toList).filter (p ·.sectionIndex) := by
  have hat : ∀ i, (definitionsAt sections i).filter (p ·.sectionIndex) =
      if p i then definitionsAt sections i else [] := by
    intro i
    split
    · next hi =>
      refine List.filter_eq_self.2 fun d hd => ?_
      rw [sectionIndex_of_mem_definitionsAt hd, hi]
    · next hi =>
      refine List.filter_eq_nil_iff.2 fun d hd => ?_
      rwa [sectionIndex_of_mem_definitionsAt hd]
  have hnil : ∀ i ∈ List.range sections.size, p i = false →
      (definitionsAt sections i).filter (p ·.sectionIndex) = [] := by
    intro i _ hi
    rw [hat, hi]
    rfl
  rw [definitionsOf_eq_flatMap, List.filter_flatMap, ← flatMap_filter_of_eq_nil hnil]
  refine List.flatMap_congr fun i hi => ?_
  rw [hat, (List.mem_filter.1 hi).2, if_pos rfl]

section
variable {settings : LinkSettings} {allowIdentical : Bool} {l : Linkage}
  (hreach : l.reach = (settings.scope l.sections l.symbols l.entry).reachFrom l.entry)
include hreach

/-- The entry is kept, so a link can start from no section before it. -/
theorem Linkage.find?_isEntryAt_kept
    (hentry : l.sections.toList.findIdx? (·.kind.isEntry) = some l.entry) :
    l.kept.find? (fun i => decide (IsEntryAt l.sections i)) = some l.entry := by
  refine find?_filter_of_find? ((find?_isEntryAt_range l.sections).trans hentry) ?_
  show l.reach.includes l.entry = true
  rw [hreach]
  exact Scope.includes_entry (List.findIdx?_eq_some_iff_getElem.1 hentry).1

/-- The owner of a name that a section kept asks for is kept. -/
theorem Linkage.find?_definitionsAt_kept
    (hsymbols : l.symbols.Records allowIdentical (definitionsOf l.sections.toList))
    {i : SectionIndex} {r : Reference} (hi : i ∈ l.kept)
    (hr : r ∈ (settings.scope l.sections l.symbols l.entry).referencesAt i)
    (hskip : (settings.scope l.sections l.symbols l.entry).skips r = false) :
    (l.kept.flatMap (definitionsAt l.sections)).find? (·.name == r.targetName) =
      (definitionsOf l.sections.toList).find? (·.name == r.targetName) := by
  have hincludes : l.reach.includes i = true := (mem_kept_iff.1 hi).2
  rw [kept, flatMap_definitionsAt_filter]
  cases hd : (definitionsOf l.sections.toList).find? (·.name == r.targetName) with
  | none =>
    rw [List.find?_eq_none] at hd ⊢
    exact fun d hmem => hd d (List.mem_of_mem_filter hmem)
  | some d =>
    have hleads : (settings.scope l.sections l.symbols l.entry).LeadsTo r d.sectionIndex :=
      ⟨hskip, d, (ownerOf_scope hsymbols l.entry _).trans hd, rfl,
        sectionIndex_lt_size (List.mem_of_find?_eq_some hd)⟩
    refine find?_filter_of_find? hd ?_
    show l.reach.includes d.sectionIndex = true
    rw [hreach] at hincludes ⊢
    exact Scope.includes_of_hop hincludes (Scope.hop_iff.2 ⟨r, hr, hleads⟩)

end

/-- **Pruning.**  To link the sections that a link has reached, in their order,
    gives a result that agrees with that of the link: it starts from the same
    section, reaches all sections, visits them in the same order, asks for the same
    names, and reports the same references that lead nowhere. -/
theorem link_kept (settings : LinkSettings) (sections : Array Section) (log : Log LinkIssue)
    (l : Linkage) (h : (link settings sections log).1 = some l) :
    ∃ l', (link settings (sectionsAt sections l.kept) log).1 = some l' ∧ l.Agrees l.kept l' ∧
      (∀ i < (sectionsAt sections l.kept).size, l'.includes i = true) ∧
      (link settings (sectionsAt sections l.kept) log).2.toList.filter (·.isUnresolved) =
        (link settings sections log).2.toList.filter (·.isUnresolved) := by
  have hissues := filter_isUnresolved_link h
  obtain ⟨rfl, hentry, hsymbols, hreach, -⟩ := of_link_eq_some h
  have hkept := l.selects_kept
  have hstart := Linkage.find?_isEntryAt_kept hreach hentry
  rw [← hkept.findIdx?_bind, Option.bind_eq_some_iff] at hstart
  obtain ⟨entry', hentry', hpick⟩ := hstart
  obtain ⟨symbols', reach', hsymbols', hreach', hresult, -⟩ := link_of_entry settings hentry' log
  have hr : Scope.Renumbers (pickAt l.kept)
      (settings.scope (sectionsAt l.sections l.kept) symbols' entry')
      (settings.scope l.sections l.symbols l.entry) :=
    hkept.renumbers hsymbols hsymbols' hpick fun i hi r hr hskip =>
      Linkage.find?_definitionsAt_kept hreach hsymbols hi hr hskip
  have hagrees := hkept.agrees hpick hr hreach hreach'
  refine ⟨_, hresult, hagrees, fun i hi => ?_, ?_⟩
  · have hmem := Linkage.mem_kept_iff.1 (pickAt_mem (hkept.size_sectionsAt ▸ hi))
    exact (hkept.includes_eq hpick hr hreach hreach' hi).trans hmem.2
  · rw [filter_isUnresolved_link hresult, hissues, hagrees.issues]

/-- A product with a fragment that it needs, after one that nothing needs. -/
def withSpare : Array Section :=
  #[componentSection "spare" .fragment ["x"] ["a"],
    componentSection "main" .product ["x", "missing"] ["m"],
    componentSection "left" .fragment ["m"] ["x"]]

theorem link_kept_withSpare :
    ∃ l, (link {} withSpare ∅).1 = some l ∧ l.kept = [1, 2] ∧
      ∃ l', (link {} (sectionsAt withSpare l.kept) ∅).1 = some l' ∧ l.Agrees l.kept l' ∧
        (∀ i < (sectionsAt withSpare l.kept).size, l'.includes i = true) ∧
        (link {} (sectionsAt withSpare l.kept) ∅).2.toList.filter (·.isUnresolved) =
          (link {} withSpare ∅).2.toList.filter (·.isUnresolved) := by
  have hlink : (link {} withSpare ∅).1.map (·.kept) = some [1, 2] := by decide +kernel
  obtain ⟨l, hl, hkept⟩ := Option.map_eq_some_iff.1 hlink
  exact ⟨l, hl, hkept, link_kept {} withSpare ∅ l hl⟩

end InstallerLinker
