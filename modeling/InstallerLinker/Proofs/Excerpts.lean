/-
  Installer linker — how a report follows the annotations.

  The excerpts of a report are built one annotation at a time, and only the last one is ever
  joined to.  What comes of it is said here without the pass: the annotations are cut where
  the location changes, and each piece is one excerpt.

  * `MaximalRuns` says what it is to be cut so, and `maximalRuns_iff` that there is one way,
    `runsOf`;
  * `Excerpt.ofRun` is the excerpt of a run, and `exists_maximalRuns_excerpts` says that the
    excerpts are those of the runs, one for each;
  * `runText` is what a report prints of a run, and `report_eq_runs` is the result.
-/
import Mathlib.Data.List.Induction
import Mathlib.Data.List.SplitBy
import InstallerLinker.Diagnostic.Excerpt

namespace InstallerLinker

/-! ## Runs -/

/-- The annotations are cut into runs at one location each, as long as they can be. -/
structure MaximalRuns (as : List Annotation) (runs : List (List Annotation)) : Prop where
  /-- No annotation is lost, added or moved. -/
  flatten : runs.flatten = as
  ne_nil : ∀ run ∈ runs, run ≠ []
  sameLocation : ∀ run ∈ runs, ∀ a ∈ run, ∀ b ∈ run, a.location = b.location
  /-- Of two neighbours, neither could go on with the other. -/
  maximal : runs.IsChain fun run next => ∀ a ∈ run, ∀ b ∈ next, a.location ≠ b.location

/-- The maximal runs of annotations at one location. -/
def runsOf (as : List Annotation) : List (List Annotation) :=
  as.splitBy fun a b => a.location = b.location

/-- A run is at one location if neighbours in it are. -/
theorem isChain_location_iff {run : List Annotation} :
    (run.IsChain fun a b => a.location = b.location) ↔
      ∀ a ∈ run, ∀ b ∈ run, a.location = b.location := by
  induction run with
  | nil => simp
  | cons a as ih =>
    rw [List.isChain_cons, ih]
    constructor
    · rintro ⟨hhead, htail⟩
      have hfirst : ∀ b ∈ as, a.location = b.location := by
        intro b hb
        have hne := List.ne_nil_of_mem hb
        exact (hhead _ (List.head_mem_head? hne)).trans (htail _ (List.head_mem hne) b hb)
      simp only [List.forall_mem_cons]
      exact ⟨⟨trivial, hfirst⟩, fun b hb => ⟨(hfirst b hb).symm, htail b hb⟩⟩
    · intro h
      simp only [List.forall_mem_cons] at h
      exact ⟨fun b hb => h.1.2 b (List.mem_of_mem_head? hb), fun b hb => (h.2 b hb).2⟩

/-- There is one way to cut annotations into maximal runs. -/
theorem maximalRuns_iff {as : List Annotation} {runs : List (List Annotation)} :
    MaximalRuns as runs ↔ runs = runsOf as := by
  rw [eq_comm, runsOf, List.splitBy_eq_iff]
  simp only [decide_eq_true_eq, decide_eq_false_iff_not, isChain_location_iff]
  -- between runs at one location each, it is enough to compare two of their annotations
  have hmaximal : (∀ run ∈ runs, run ≠ []) →
      (∀ run ∈ runs, ∀ a ∈ run, ∀ b ∈ run, a.location = b.location) →
      ((runs.IsChain fun run next => ∀ a ∈ run, ∀ b ∈ next, a.location ≠ b.location) ↔
        runs.IsChain fun run next =>
          ∃ ha hb, ¬ (run.getLast ha).location = (next.head hb).location) := by
    intro hne hsame
    refine List.IsChain.iff_of_mem_imp fun run next hrun hnext => ?_
    constructor
    · exact fun h => ⟨hne run hrun, hne next hnext, h _ (List.getLast_mem _) _ (List.head_mem _)⟩
    · rintro ⟨hrn, hnn, h⟩ a ha b hb hab
      refine h ?_
      rw [hsame run hrun _ (List.getLast_mem hrn) a ha, hab,
        hsame next hnext b hb _ (List.head_mem hnn)]
  constructor
  · rintro ⟨rfl, hne, hsame, hchain⟩
    exact ⟨rfl, fun hnil => hne [] hnil rfl, hsame, (hmaximal hne hsame).1 hchain⟩
  · rintro ⟨rfl, hnil, hsame, hchain⟩
    have hne : ∀ run ∈ runs, run ≠ [] := fun run hrun h => hnil (h ▸ hrun)
    exact ⟨rfl, hne, hsame, (hmaximal hne hsame).2 hchain⟩

/-- Neither are equal locations joined that are apart, nor different ones that print
    alike. -/
example :
    runsOf [(Location.atLine "a" 1).error "x", (Location.atLine "a" 1).markError,
        (Location.whole "a:1").markError, (Location.atLine "a" 1).help "y"] =
      [[(Location.atLine "a" 1).error "x", (Location.atLine "a" 1).markError],
        [(Location.whole "a:1").markError], [(Location.atLine "a" 1).help "y"]] := by
  decide

namespace MaximalRuns
variable {as : List Annotation} {runs : List (List Annotation)} {run : List Annotation}
  {a : Annotation}

/-- An annotation at another location than the last run opens a new one. -/
theorem push (h : MaximalRuns as runs)
    (ha : ∀ run ∈ runs.getLast?, ∀ b ∈ run, b.location ≠ a.location) :
    MaximalRuns (as ++ [a]) (runs ++ [[a]]) where
  flatten := by
    rw [List.flatten_append, h.flatten, List.flatten_singleton]
  ne_nil := by
    rw [List.forall_mem_append]
    exact ⟨h.ne_nil, by simp⟩
  sameLocation := by
    rw [List.forall_mem_append]
    exact ⟨h.sameLocation, by simp⟩
  maximal := by
    rw [List.isChain_append]
    exact ⟨h.maximal, List.isChain_singleton _, by simpa using ha⟩

/-- An annotation at the location of the last run goes on with it. -/
theorem extend (h : MaximalRuns as (runs ++ [run])) (ha : ∀ b ∈ run, b.location = a.location) :
    MaximalRuns (as ++ [a]) (runs ++ [run ++ [a]]) where
  flatten := by
    rw [← h.flatten]
    simp
  ne_nil := by
    have hne := h.ne_nil
    simp only [List.forall_mem_append] at hne ⊢
    exact ⟨hne.1, by simp⟩
  sameLocation := by
    have hsame := h.sameLocation
    simp only [List.forall_mem_append, List.forall_mem_singleton] at hsame ⊢
    exact ⟨hsame.1, fun b hb => ⟨hsame.2 b hb, ha b hb⟩, fun b hb => (ha b hb).symm, trivial⟩
  maximal := by
    have hchain := h.maximal
    have hne : run ≠ [] := h.ne_nil run (by simp)
    obtain ⟨b, hb⟩ := List.exists_mem_of_ne_nil run hne
    rw [List.isChain_append] at hchain ⊢
    refine ⟨hchain.1, List.isChain_singleton _, fun before hbefore next hnext => ?_⟩
    obtain rfl : run ++ [a] = next := by simpa using hnext
    have hdiff := hchain.2.2 before hbefore run (by simp)
    simp only [List.forall_mem_append, List.forall_mem_singleton]
    exact fun c hc => ⟨hdiff c hc, ha b hb ▸ hdiff c hc b hb⟩

end MaximalRuns

/-! ## Excerpts -/

/-- The excerpt of a run: its location, and what its annotations say. -/
def Excerpt.ofRun (run : List Annotation) : Excerpt :=
  ⟨(run.head?.map (·.location)).getD default, run.flatMap Annotation.remarks⟩

theorem Excerpt.append_ofRun {run : List Annotation} (h : run ≠ []) (a : Annotation) :
    (Excerpt.ofRun run).append a = .ofRun (run ++ [a]) := by
  cases run with
  | nil => exact absurd rfl h
  | cons b run => simp [ofRun, append]

/-- The excerpts are those of the maximal runs. -/
theorem exists_maximalRuns_excerpts (as : List Annotation) :
    ∃ runs, MaximalRuns as runs ∧ (excerpts as).toList = runs.map Excerpt.ofRun := by
  induction as using List.reverseRecOn with
  | nil => exact ⟨[], ⟨rfl, by simp, by simp, List.isChain_nil⟩, rfl⟩
  | append_singleton as a ih =>
    obtain ⟨runs, hruns, hexcerpts⟩ := ih
    rw [excerpts, List.foldl_append, ← excerpts, List.foldl_cons, List.foldl_nil, addAnnotation]
    cases hback : (excerpts as).back? with
    | none =>
      rw [Array.back?_eq_none_iff.1 hback] at hexcerpts ⊢
      obtain rfl : runs = [] := by simpa using hexcerpts.symm
      exact ⟨[[a]], hruns.push (by simp), by simp [Excerpt.single, Excerpt.ofRun]⟩
    | some e =>
      obtain ⟨es, hes⟩ := Array.back?_eq_some_iff.1 hback
      rw [hes] at hexcerpts ⊢
      rw [Array.toList_push, eq_comm, List.map_eq_append_iff] at hexcerpts
      obtain ⟨before, last, rfl, hbefore, hlast⟩ := hexcerpts
      obtain ⟨run, rfl, rfl⟩ := List.map_eq_singleton_iff.1 hlast
      have hne : run ≠ [] := hruns.ne_nil run (by simp)
      have hmem : ∀ b ∈ run, b.location = (Excerpt.ofRun run).location := by
        obtain ⟨c, rest, rfl⟩ := List.exists_cons_of_ne_nil hne
        exact fun b hb => hruns.sameLocation _ (by simp) b hb c (List.mem_cons_self ..)
      simp only
      split
      · next hsame =>
        refine ⟨before ++ [run ++ [a]], hruns.extend fun b hb => (hmem b hb).trans hsame, ?_⟩
        rw [Excerpt.append_ofRun hne]
        simp [hbefore]
      · next hdiff =>
        refine ⟨before ++ [run] ++ [[a]], hruns.push ?_, ?_⟩
        · simp only [List.getLast?_concat, Option.mem_some_iff]
          rintro _ rfl b hb hab
          exact hdiff ((hmem b hb).symm.trans hab)
        · simp [hbefore, Excerpt.single, Excerpt.ofRun]

theorem excerpts_eq (as : List Annotation) :
    (excerpts as).toList = (runsOf as).map Excerpt.ofRun := by
  obtain ⟨runs, hruns, hexcerpts⟩ := exists_maximalRuns_excerpts as
  rw [hexcerpts, maximalRuns_iff.1 hruns]

/-! ## The text -/

/-- The line of a label; an annotation without one has no line. -/
def Annotation.labelLine? (a : Annotation) : Option String :=
  a.label.map fun label => "      " ++ a.severity.text ++ ": " ++ label ++ "\n"

/-- What a report prints of a run: the line of its location, and a line for each label. -/
def runText : List Annotation → String
  | [] => ""
  | a :: as => "  --> " ++ a.location.text ++ "\n" ++
      String.join ((a :: as).filterMap Annotation.labelLine?)

theorem map_remarkText_remarks (as : List Annotation) :
    (as.flatMap Annotation.remarks).map Excerpt.remarkText =
      as.filterMap Annotation.labelLine? := by
  rw [List.map_flatMap, List.filterMap_eq_flatMap_toList]
  refine List.flatMap_congr fun a _ => ?_
  obtain ⟨location, severity, _ | label⟩ := a <;> rfl

theorem Excerpt.text_ofRun {run : List Annotation} (h : run ≠ []) :
    (Excerpt.ofRun run).text = runText run := by
  obtain ⟨a, as, rfl⟩ := List.exists_cons_of_ne_nil h
  rw [text, runText, ← map_remarkText_remarks]
  rfl

/-- **What a report prints.**  After the heading comes one block for each maximal run of
    annotations at one location, in order. -/
theorem report_eq_runs {δ : Type} [Diagnostic δ] (d : δ) :
    Diagnostic.report d =
        (Diagnostic.severity d).text ++ ": " ++ Diagnostic.message d ++ "\n" ++
          String.join ((runsOf (Diagnostic.annotations d)).map runText) ∧
      ∀ runs, MaximalRuns (Diagnostic.annotations d) runs ↔
        runs = runsOf (Diagnostic.annotations d) := by
  refine ⟨?_, fun runs => maximalRuns_iff⟩
  have hruns := maximalRuns_iff.2 (Eq.refl (runsOf (Diagnostic.annotations d)))
  have htext : (runsOf (Diagnostic.annotations d)).map (fun run => (Excerpt.ofRun run).text) =
      (runsOf (Diagnostic.annotations d)).map runText :=
    List.map_congr_left fun run hrun => Excerpt.text_ofRun (hruns.ne_nil run hrun)
  rw [Diagnostic.report, Diagnostic.heading, excerpts_eq, List.map_map, ← htext]
  rfl

end InstallerLinker
