/-
  Installer linker — how a symbol table grows.

  A survey adds the definitions of the sections to its table, one after the other, and
  takes nothing back: what the table holds after some of them is still there after all.

  * `SymbolTable.defineAll` adds a list of definitions, and `symbols_survey` and
    `symbols_link` say that the table of a survey, and of a link, is what comes of adding
    all of them to the empty one;
  * `SymbolTable.ExtendedBy` says that a table holds what another one does, each symbol at
    its position; `extendedBy_define` is the step and `extendedBy_defineAll` what it comes
    to.
-/
import InstallerLinker.Linkage
import InstallerLinker.Proofs.Ownership

namespace InstallerLinker

namespace SymbolTable

/-- Add definitions, one after the other. -/
def defineAll (allowIdentical : Bool) (t : SymbolTable) (ds : List Definition) : SymbolTable :=
  ds.foldl (fun t d => (t.define allowIdentical d).1) t

theorem defineAll_append (allowIdentical : Bool) (t : SymbolTable) (ds ds' : List Definition) :
    t.defineAll allowIdentical (ds ++ ds') =
      (t.defineAll allowIdentical ds).defineAll allowIdentical ds' :=
  List.foldl_append

end SymbolTable

/-! ## The table of a survey -/

namespace Survey.Progress
variable {allowIdentical : Bool}

theorem symbols_foldl_define (p : Progress) (ds : List Definition) :
    (ds.foldl (define allowIdentical) p).symbols = p.symbols.defineAll allowIdentical ds := by
  induction ds generalizing p with
  | nil => rfl
  | cons d ds ih =>
    rw [List.foldl_cons, ih, symbols_define]
    rfl

theorem symbols_readAll (sections : Array Section) (allowIdentical : Bool)
    (expected : SectionKind) (log : Log LinkIssue) :
    (readAll sections allowIdentical expected log).symbols =
      (∅ : SymbolTable).defineAll allowIdentical (definitionsOf sections.toList) := by
  refine foldl_zipIdx_induct (P := fun done (p : Progress) => p.symbols =
    (∅ : SymbolTable).defineAll allowIdentical (definitionsOf done)) sections.toList _ rfl ?_
  intro done s after p hl hp
  rw [readSection, symbols_foldl_define, symbols_noteEntry, hp, definitionsOf_append_singleton,
    SymbolTable.defineAll_append]

end Survey.Progress

theorem symbols_survey (sections : Array Section) (allowIdentical : Bool) (expected : SectionKind)
    (log : Log LinkIssue) :
    (survey sections allowIdentical expected log).1.symbols =
      (∅ : SymbolTable).defineAll allowIdentical (definitionsOf sections.toList) :=
  Survey.Progress.symbols_readAll sections allowIdentical expected log

theorem symbols_link {settings : LinkSettings} {sections : Array Section} {log : Log LinkIssue}
    {l : Linkage} (h : (link settings sections log).1 = some l) :
    l.symbols = (∅ : SymbolTable).defineAll settings.allowIdenticalRows
      (definitionsOf sections.toList) := by
  have hsymbols := symbols_survey sections settings.allowIdenticalRows settings.expectedKind log
  unfold link at h
  rcases hs : survey sections settings.allowIdenticalRows settings.expectedKind log with
    ⟨⟨_ | entry, symbols⟩, log'⟩
  · rw [hs] at h
    cases h
  · rw [hs] at h hsymbols
    cases h
    exact hsymbols

/-! ## Tables that extend others -/

namespace SymbolTable

/-- The table `t'` holds what `t` does.  Owners stay where they are; duplicates and
    contested symbols may follow at the end. -/
structure ExtendedBy (t t' : SymbolTable) : Prop where
  symbol : ∀ k s, t.get? k = some s → ∃ s', t'.get? k = some s' ∧ s'.owner = s.owner ∧
    s.duplicates.toList <+: s'.duplicates.toList
  lookup : ∀ name k, t.lookup name = some k → t'.lookup name = some k
  contested : t.contested.toList <+: t'.contested.toList

variable {t t' t'' : SymbolTable}

theorem ExtendedBy.refl (t : SymbolTable) : t.ExtendedBy t where
  symbol _ s hs := ⟨s, hs, rfl, List.prefix_rfl⟩
  lookup _ _ hk := hk
  contested := List.prefix_rfl

theorem ExtendedBy.trans (h : t.ExtendedBy t') (h' : t'.ExtendedBy t'') : t.ExtendedBy t'' where
  symbol k s hs := by
    obtain ⟨s', hs', howner, hduplicates⟩ := h.symbol k s hs
    obtain ⟨s'', hs'', howner', hduplicates'⟩ := h'.symbol k s' hs'
    exact ⟨s'', hs'', howner'.trans howner, hduplicates.trans hduplicates'⟩
  lookup name k hk := h'.lookup name k (h.lookup name k hk)
  contested := h.contested.trans h'.contested

theorem extendedBy_addOwner {d : Definition} (hd : t.lookup d.name = none) :
    t.ExtendedBy (t.addOwner d) where
  symbol k s hs := by
    rw [get?_addOwner, if_neg (Nat.ne_of_lt (Records.get?_lt_size hs))]
    exact ⟨s, hs, rfl, List.prefix_rfl⟩
  lookup name k hk := by
    rw [lookup_addOwner, if_neg, hk]
    rintro rfl
    rw [hd] at hk
    cases hk
  contested := List.prefix_rfl

theorem extendedBy_addDuplicate (t : SymbolTable) (i : SymbolIndex) (first : Bool)
    (d : Definition) : t.ExtendedBy (t.addDuplicate i first d) where
  symbol k s hs := by
    rw [get?_addDuplicate, hs]
    split
    · refine ⟨s.addDuplicate d, rfl, rfl, ?_⟩
      rw [Symbol.addDuplicate, Array.toList_push]
      exact List.prefix_append _ _
    · exact ⟨s, rfl, rfl, List.prefix_rfl⟩
  lookup _ _ hk := hk
  contested := by
    rw [contested_addDuplicate]
    cases first with
    | false => exact List.prefix_rfl
    | true =>
      rw [if_pos rfl, Array.toList_push]
      exact List.prefix_append _ _

theorem extendedBy_define (allowIdentical : Bool) (t : SymbolTable) (d : Definition) :
    t.ExtendedBy (t.define allowIdentical d).1 := by
  unfold SymbolTable.define
  split
  · next hd => exact extendedBy_addOwner hd
  · next i _ =>
    split
    · exact .refl t
    · split
      · exact .refl t
      · exact extendedBy_addDuplicate t i _ d

theorem extendedBy_defineAll (allowIdentical : Bool) (t : SymbolTable) (ds : List Definition) :
    t.ExtendedBy (t.defineAll allowIdentical ds) := by
  induction ds generalizing t with
  | nil => exact .refl t
  | cons d ds ih => exact (extendedBy_define allowIdentical t d).trans (ih _)

end SymbolTable

end InstallerLinker
