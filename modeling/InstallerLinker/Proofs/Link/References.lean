/-
  Installer linker — which references a link reports.

  A link reports the references that its search finds to be dangling.  As the search
  accounts for each reference of the sections that it visits, the link reports each of
  them that leads nowhere, and reports it once.

  * `Scope.Accounts.mem_symbols_iff_of_records` gives the symbols taken note of where the
    table records definitions, as that of a link does;
  * `accounts_link` says what becomes of the references, for any search and for any link.
-/
import InstallerLinker.Proofs.Link.Conflicts
import InstallerLinker.Proofs.Reach.References

namespace InstallerLinker

theorem filter_isUnresolved_link_of_no_result {settings : LinkSettings} {sections : Array Section}
    {log : Log LinkIssue} (h : (link settings sections log).1 = none) :
    (link settings sections log).2.toList.filter (·.isUnresolved) =
      log.toList.filter (·.isUnresolved) := by
  cases hentry : sections.toList.findIdx? (·.kind.isEntry) with
  | none =>
    rw [(link_of_no_entry settings hentry log).2, List.filter_append, List.filter_append,
      filter_isUnresolved_surveyIssues, List.append_nil]
    exact List.append_nil _
  | some entry =>
    obtain ⟨symbols, reach, -, -, hresult, -⟩ := link_of_entry settings hentry log
    rw [hresult] at h
    cases h

/-- In a table that records definitions, a name leads to none but its symbols. -/
theorem Scope.Accounts.mem_symbols_iff_of_records {g : Scope} {entry : SectionIndex} {reach : Reach}
    (h : g.Accounts entry reach) {allowIdentical : Bool} {ds : List Definition}
    (hsymbols : g.symbols.Records allowIdentical ds) (k : SymbolIndex) :
    k ∈ reach.symbols.toList ↔
      ∃ name, g.AsksFor reach name ∧ g.symbols.lookup name = some k := by
  rw [h.mem_symbols_iff, and_iff_right_of_imp]
  rintro ⟨name, -, hk⟩
  obtain ⟨s, hs, -⟩ := (hsymbols.lookup_iff name k).1 hk
  exact SymbolTable.Records.get?_lt_size hs

/-- **Each reference is accounted for, once.**  A search says of every reference that it
    is to follow what became of it: it is dangling, or its symbol is taken note of.  A
    link reports the dangling ones, in the order in which the search reads them, and no
    others. -/
theorem accounts_link :
    (∀ (g : Scope) (entry : SectionIndex), g.Accounts entry (g.reachFrom entry)) ∧
    ∀ (settings : LinkSettings) (sections : Array Section) (log : Log LinkIssue),
      match link settings sections log with
      | (none, log') => log'.toList.filter (·.isUnresolved) = log.toList.filter (·.isUnresolved)
      | (some l, log') =>
        (settings.scope sections l.symbols l.entry).Accounts l.entry l.reach ∧
        (∀ k, k ∈ l.reach.symbols.toList ↔
          ∃ name, (settings.scope sections l.symbols l.entry).AsksFor l.reach name ∧
            l.symbols.lookup name = some k) ∧
        log'.toList.filter (·.isUnresolved) = log.toList.filter (·.isUnresolved) ++
          l.reach.dangling.toList.map fun d =>
            .unresolvedReference d.reference.targetName d.reference.location := by
  refine ⟨Scope.accounts_reachFrom, fun settings sections log => ?_⟩
  rcases hlink : link settings sections log with ⟨_ | l, log'⟩
  · have hlog := filter_isUnresolved_link_of_no_result (congrArg Prod.fst hlink)
    rwa [hlink] at hlog
  · have hl : (link settings sections log).1 = some l := congrArg Prod.fst hlink
    obtain ⟨-, -, hsymbols, hreach, -⟩ := of_link_eq_some hl
    have hlog := filter_isUnresolved_link hl
    rw [hlink] at hlog
    have haccounts : (settings.scope sections l.symbols l.entry).Accounts l.entry l.reach := by
      rw [hreach]
      exact Scope.accounts_reachFrom _ _
    exact ⟨haccounts, haccounts.mem_symbols_iff_of_records hsymbols, hlog⟩

/-- Two ways lead from the product to a fragment that refers back to the product, and
    nobody defines what the two sections on the way and the fragment ask for. -/
def diamond : Array Section :=
  #[componentSection "main" .product ["l", "r", "lost"] ["m"],
    componentSection "left" .fragment ["s", "lost"] ["l"],
    componentSection "right" .fragment ["gone", "s"] ["r"],
    componentSection "shared" .fragment ["m", "gone"] ["s"]]

theorem accounts_link_diamond :
    ∃ l, (link {} diamond ∅).1 = some l ∧
      (LinkSettings.scope {} diamond l.symbols l.entry).Accounts l.entry l.reach ∧
      (link {} diamond ∅).2.toList.filter (·.isUnresolved) =
        ["gone", "lost", "gone", "lost"].map fun key =>
          .unresolvedReference ("Component:" ++ key) .unknown := by
  have hlink := accounts_link.2 {} diamond ∅
  have hsome : (link {} diamond ∅).1.isSome = true := by decide +kernel
  obtain ⟨l, hl⟩ := Option.isSome_iff_exists.1 hsome
  refine ⟨l, hl, ?_, by decide +kernel⟩
  rcases h : link {} diamond ∅ with ⟨_ | l', log⟩
  · rw [h] at hl
    cases hl
  · rw [h] at hl hlink
    cases hl
    exact hlink.1

end InstallerLinker
