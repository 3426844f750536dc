import Mathlib
import CssWorkbench.Proofs.Custom.ExchangeEdits
import CssWorkbench.Proofs.Custom.NamesRead
import CssWorkbench.Proofs.Custom.RenamedOccurrences
import CssWorkbench.Proofs.Tree.SameReading

/-!
# Renaming a custom property

The edits of a renaming write the name of every occurrence anew. In the source that they make the
scanner finds the tokens of the old one, the parser reads them in the same way, and the occurrences
are the old ones but for their names.
-/

namespace CssWorkbench

variable {source wanted new old : String} {start stop : Nat} {t u : Token} {ts : List Token}

/-- A custom name has two dashes in front of name characters. -/
theorem customName?_eq_some (h : customName? wanted = some new) :
    ∃ bare, new = String.ofList ('-' :: '-' :: bare) ∧ bare ≠ [] ∧ bare.all isNameChar = true := by
  unfold customName? at h
  extract_lets trimmed bare at h
  split at h
  · rename_i htest
    obtain ⟨hne, hall⟩ := Bool.and_eq_true_iff.mp htest
    exact ⟨_, (Option.some.inj h).symm, by simpa using hne, hall⟩
  · cases h

/-- Tiling tokens are told apart by their places. -/
theorem Tiles.eq_of_span_eq (h : Tiles start stop ts) (ht : t ∈ ts) (hu : u ∈ ts)
    (hspan : t.span = u.span) : t = u := by
  have hstart : t.start = u.start := congrArg Span.start hspan
  induction ts generalizing start with
  | nil => cases ht
  | cons v ts ih =>
    obtain ⟨rfl, hpos, hrest⟩ := h
    rcases List.mem_cons.mp ht with rfl | htail <;> rcases List.mem_cons.mp hu with rfl | hutail
    · rfl
    · have hbounds := hrest.of_mem hutail
      omega
    · have hbounds := hrest.of_mem htail
      omega
    · exact ih hrest htail hutail

namespace Stylesheet

/-- Whether labels are those of an occurrence of a custom property. -/
def labelled (sheet : Stylesheet) (old : String) (labels : String × Span) : Bool :=
  labels ∈ (sheet.occurrencesOf old).map Occurrence.labels

/-- A label is one to rename if it is that of an occurrence with the old name. -/
theorem labelled_iff {sheet : Stylesheet} {labels : String × Span} :
    sheet.labelled old labels = true ↔
      labels ∈ sheet.occurrences.map Occurrence.labels ∧ labels.1 = old := by
  rw [labelled, decide_eq_true_iff]
  simp only [occurrencesOf, decide_eq_true_eq, List.mem_map, List.mem_filter]
  constructor
  · rintro ⟨o, ⟨ho, rfl⟩, rfl⟩
    exact ⟨⟨o, ho, rfl⟩, rfl⟩
  · rintro ⟨⟨o, ho, rfl⟩, rfl⟩
    exact ⟨o, ⟨ho, rfl⟩, rfl⟩

/-- The labels of the occurrences of one custom property are some of those of all. -/
theorem map_labels_occurrencesOf (sheet : Stylesheet) (old : String) :
    (sheet.occurrencesOf old).map Occurrence.labels =
      (sheet.occurrences.map Occurrence.labels).filter fun labels => labels.1 = old := by
  rw [List.filter_map]
  rfl

end Stylesheet

/-- The name tokens of all occurrences, found in the source. -/
theorem exists_named_tokens (source : String) :
    ∃ us, Named (Token.eof 0) (tokensFrom 0 source.toList) us ∧
      (parse source).1.occurrences.map Occurrence.labels = us.map Token.labels := by
  obtain ⟨read, hread, ⟨us, hnamed, hlabels⟩, -⟩ :=
    @Reads.consumes _ _ _ (Token.eof 0) _ _ _ _ (reads_parse source) (.inl rfl)
  rw [List.append_nil, dropLast_scan] at hread
  exact ⟨us, hread ▸ hnamed, by rw [occurrences_eq, hlabels]⟩

/-- The name tokens of one custom property can be exchanged. They are the tokens that its
occurrences are labelled with, and they stand in the order of the occurrences. -/
theorem exchangeable_labelled (source old : String) :
    Exchangeable (fun t => (parse source).1.labelled old t.labels) (Token.eof 0)
        (tokensFrom 0 source.toList) ∧
      ((tokensFrom 0 source.toList).filter
          fun t => (parse source).1.labelled old t.labels).map Token.labels =
        ((parse source).1.occurrencesOf old).map Occurrence.labels := by
  obtain ⟨us, hnamed, hlabels⟩ := exists_named_tokens source
  have htiles := tiles_tokensFrom 0 source.toList
  have hmem : ∀ t ∈ tokensFrom 0 source.toList,
      (parse source).1.labelled old t.labels = true ↔ t ∈ us ∧ decide (t.value = old) = true := by
    intro t ht
    rw [Stylesheet.labelled_iff, hlabels, decide_eq_true_iff]
    refine and_congr_left fun _ => ⟨fun hin => ?_, List.mem_map_of_mem⟩
    obtain ⟨u, hu, heq⟩ := List.mem_map.mp hin
    have hspan : u.span = t.span := congrArg Prod.snd heq
    exact htiles.eq_of_span_eq (hnamed.sublist.mem hu) ht hspan ▸ hu
  obtain ⟨hexchangeable, hfilter⟩ := hnamed.exchangeable htiles.nodup hmem
  refine ⟨hexchangeable, ?_⟩
  rw [hfilter, Stylesheet.map_labels_occurrencesOf, hlabels, List.filter_map]
  rfl

/-- Names that are written anew name custom properties. -/
theorem custom_of_labelled {source : String} (ht : t ∈ tokensFrom 0 source.toList)
    (h : (parse source).1.labelled old t.labels = true) :
    t.kind = .ident ∧ t.isCustomName = true := by
  obtain ⟨us, hnamed, hlabels⟩ := exists_named_tokens source
  obtain ⟨hin, -⟩ := Stylesheet.labelled_iff.mp h
  rw [hlabels] at hin
  obtain ⟨u, hu, heq⟩ := List.mem_map.mp hin
  have hspan : u.span = t.span := congrArg Prod.snd heq
  obtain rfl := (tiles_tokensFrom 0 source.toList).eq_of_span_eq (hnamed.sublist.mem hu) ht hspan
  exact hnamed.custom_of_mem hu

/-- The source with the name of one custom property written anew. -/
def renamedSource (source old : String) (new : List Char) : String :=
  String.ofList (exchangeFrom (fun t => (parse source).1.labelled old t.labels) new 0 source.toList)

/-- The tokens of the new source stand in the places of the old ones. -/
theorem tokens_renamedSource {bare : List Char} (hne : bare ≠ [])
    (hbare : bare.all isNameChar = true) (source old : String) :
    List.Forall₂
      (Renames ((parse source).1.labelled old) (String.ofList ('-' :: '-' :: bare)))
      (tokensFrom 0 source.toList)
      (tokensFrom 0 (renamedSource source old ('-' :: '-' :: bare)).toList) := by
  obtain ⟨hexchangeable, -⟩ := exchangeable_labelled source old
  have htokens := @tokensFrom_exchangeFrom _ _ _ 0 0 _ hne hbare hexchangeable
  have hcustom := fun t (ht : t ∈ tokensFrom 0 source.toList) => @custom_of_labelled old t _ ht
  rw [renamedSource, String.toList_ofList]
  exact ((List.forall₂_and_left _ _).mpr ⟨hcustom, htokens⟩).imp
    fun t u ⟨hname, hexchanged⟩ => ⟨hexchanged.kind, hexchanged.value, hname⟩

/-- The occurrences in the new source stand in the places of the old ones. -/
theorem occurrences_renamedSource {bare : List Char} (hne : bare ≠ [])
    (hbare : bare.all isNameChar = true) (source old : String) :
    List.Forall₂
      (RenamesOccurrence ((parse source).1.labelled old) (String.ofList ('-' :: '-' :: bare)))
      (parse source).1.occurrences
      (parse (renamedSource source old ('-' :: '-' :: bare))).1.occurrences := by
  have hnew : ['-', '-'].isPrefixOf (String.ofList ('-' :: '-' :: bare)).toList = true := by
    simp [List.isPrefixOf]
  have htokens := tokens_renamedSource hne hbare source old
  obtain ⟨nodes', e', rest', errors', hreads, -, hdecls⟩ :=
    (reads_parse source).related (respectsRoles_renames hnew)
      (Text.size (renamedSource source old ('-' :: '-' :: bare))) htokens
  rw [parse_eq_of_reads hreads, occurrences_eq, occurrences_eq]
  exact List.rel_flatMap hdecls fun _ _ hrelated => occurrences_renames hnew hrelated

/-- What is said of an occurrence and the one in its place, when the labels in question are those
of one custom property. -/
theorem map_renamesOccurrence {sheet : Stylesheet} {os os' : List Occurrence}
    (h : List.Forall₂ (RenamesOccurrence (sheet.labelled old) new) os os')
    (hmem : ∀ o ∈ os, o ∈ sheet.occurrences) :
    os'.map (fun o => (o.name, o.access)) =
      os.map fun o => (if o.name = old then new else o.name, o.access) := by
  induction h with
  | nil => rfl
  | @cons o o' os os' hrename _ ih =>
    rw [List.map_cons, List.map_cons, ih fun p hp => hmem p (List.mem_cons_of_mem _ hp)]
    have hiff : sheet.labelled old o.labels = true ↔ o.name = old := by
      rw [Stylesheet.labelled_iff]
      exact and_iff_right (List.mem_map_of_mem (hmem o List.mem_cons_self))
    simp only [hrename.name, hrename.access, hiff]

/-- A renaming gives one edit for each occurrence of the custom property, and the edits stand in
order and apart. In the source that they make there are the same occurrences: those of the property
have the new name, and the others their own. -/
theorem rename_occurrences {source wanted new : String} {offset : Nat} {symbol : Occurrence}
    (hat : (parse source).1.occurrenceAt? offset = some symbol)
    (hnew : customName? wanted = some new) :
    ∃ edits, (parse source).1.rename? offset wanted = some edits ∧
      edits = ((parse source).1.occurrencesOf symbol.name).map (fun o => ⟨o.nameSpan, new⟩) ∧
      InOrder 0 (Text.size source) (edits.map TextEdit.span) ∧
      (parse (applyEdits source edits)).1.occurrences.map (fun o => (o.name, o.access)) =
        (parse source).1.occurrences.map fun o =>
          (if o.name = symbol.name then new else o.name, o.access) := by
  obtain ⟨bare, rfl, hne, hbare⟩ := customName?_eq_some hnew
  refine ⟨_, by rw [Stylesheet.rename?, hat, hnew], rfl, ?_⟩
  obtain ⟨-, hlabels⟩ := exchangeable_labelled source symbol.name
  have hedits : ((parse source).1.occurrencesOf symbol.name).map
      (fun o => TextEdit.mk o.nameSpan (String.ofList ('-' :: '-' :: bare))) =
        ((tokensFrom 0 source.toList).filter
          fun t => (parse source).1.labelled symbol.name t.labels).map
            (⟨·.span, String.ofList ('-' :: '-' :: bare)⟩) := by
    have hspans := congrArg
      (List.map fun labels => TextEdit.mk labels.2 (String.ofList ('-' :: '-' :: bare))) hlabels
    rw [List.map_map, List.map_map] at hspans
    exact hspans.symm
  rw [hedits]
  constructor
  · rw [List.map_map]
    have htiles := tiles_tokensFrom 0 source.toList
    rw [Nat.zero_add] at htiles
    exact htiles.inOrder_of_sublist List.filter_sublist
  · rw [applyEdits_exchange, String.toList_ofList]
    exact map_renamesOccurrence (occurrences_renamedSource hne hbare source symbol.name)
      fun _ ho => ho

/-- The property that is set and read in `a{--b:1;c:var(--b)}` gets another name there. -/
theorem rename_occurrences_of_reference :
    (parse "a\x7b--b:1;c:var(--b)\x7d").1.occurrenceAt? 3 =
        some ⟨"--b", ⟨2, 5⟩, ⟨2, 5⟩, .write⟩ ∧
      customName? "x" = some "--x" ∧
      ∃ edits, (parse "a\x7b--b:1;c:var(--b)\x7d").1.rename? 3 "x" = some edits ∧
        edits = ((parse "a\x7b--b:1;c:var(--b)\x7d").1.occurrencesOf "--b").map
          (fun o => ⟨o.nameSpan, "--x"⟩) ∧
        InOrder 0 (Text.size "a\x7b--b:1;c:var(--b)\x7d") (edits.map TextEdit.span) ∧
        (parse (applyEdits "a\x7b--b:1;c:var(--b)\x7d" edits)).1.occurrences.map
            (fun o => (o.name, o.access)) =
          (parse "a\x7b--b:1;c:var(--b)\x7d").1.occurrences.map fun o =>
            (if o.name = "--b" then "--x" else o.name, o.access) := by
  have hat : (parse "a\x7b--b:1;c:var(--b)\x7d").1.occurrenceAt? 3 =
      some ⟨"--b", ⟨2, 5⟩, ⟨2, 5⟩, .write⟩ := by cbv
  have hnew : customName? "x" = some "--x" := by cbv
  exact ⟨hat, hnew, rename_occurrences hat hnew⟩

end CssWorkbench
