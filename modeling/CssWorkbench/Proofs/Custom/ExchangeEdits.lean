import CssWorkbench.Proofs.Custom.Exchange
import CssWorkbench.Proofs.Text.InOrder
import CssWorkbench.Text.Edit

/-!
# Edits that exchange names

The edits of a renaming put the new name in the place of tokens of the source. They are in order
and apart, as the tokens are, and what they make of the source is the exchange of its names.
-/

namespace CssWorkbench

variable {renamed : Token → Bool} {p t : Token} {ts us : List Token} {start stop : Nat}

/-- Some of the tokens that tile a stretch stand in order there. -/
theorem Tiles.inOrder_of_sublist (h : Tiles start stop ts) (hsub : us.Sublist ts) :
    InOrder start stop (us.map Token.span) := by
  induction hsub generalizing start with
  | slnil => exact h.le
  | cons t _ ih =>
    obtain ⟨hstart, hpos, hrest⟩ := h
    exact (ih hrest).of_le (by omega)
  | cons_cons t _ ih =>
    obtain ⟨rfl, hpos, hrest⟩ := h
    exact ⟨Nat.le_refl _, hpos, ih hrest⟩

/-- Tokens that are named stand among the tokens, in their order. -/
theorem Named.sublist (h : Named p ts us) : us.Sublist ts := by
  induction h with
  | nil => exact .slnil
  | skip _ ih => exact .cons _ ih
  | take _ _ _ _ ih => exact .cons_cons _ ih

/-- A token that is named has the name of a custom property. -/
theorem Named.custom_of_mem (h : Named p ts us) (ht : t ∈ us) :
    t.kind = .ident ∧ t.isCustomName = true := by
  induction h with
  | nil => cases ht
  | skip _ ih => exact ih ht
  | take _ kind custom _ ih =>
    rcases List.mem_cons.mp ht with rfl | ht
    · exact ⟨kind, custom⟩
    · exact ih ht

/-- The name tokens that pass a test can be exchanged, and they are the tokens that are. -/
theorem Named.exchangeable (h : Named p ts us) (hnodup : ts.Nodup) {q : Token → Bool}
    (hrenamed : ∀ t ∈ ts, renamed t = true ↔ t ∈ us ∧ q t = true) :
    Exchangeable renamed p ts ∧ ts.filter renamed = us.filter q := by
  induction h with
  | nil => exact ⟨trivial, rfl⟩
  | @skip p t ts us behind ih =>
    obtain ⟨hmem, hrest⟩ := List.nodup_cons.mp hnodup
    have hno : ¬ renamed t = true := fun hren =>
      hmem (behind.sublist.mem ((hrenamed t List.mem_cons_self).mp hren).1)
    obtain ⟨hexchangeable, hfilter⟩ := ih hrest
      fun u hu => hrenamed u (List.mem_cons_of_mem _ hu)
    refine ⟨⟨fun hren => absurd hren hno, hexchangeable⟩, ?_⟩
    rw [List.filter_cons_of_neg hno, hfilter]
  | @take p t ts us firm kind custom behind ih =>
    obtain ⟨hmem, hrest⟩ := List.nodup_cons.mp hnodup
    obtain ⟨hexchangeable, hfilter⟩ := ih hrest fun u hu => by
      rw [hrenamed u (List.mem_cons_of_mem _ hu), List.mem_cons]
      have hne : u ≠ t := fun heq => hmem (heq ▸ hu)
      simp [hne]
    refine ⟨⟨fun _ => ⟨firm, kind⟩, hexchangeable⟩, ?_⟩
    have hself : renamed t = q t := by
      have hiff := hrenamed t List.mem_cons_self
      simp only [List.mem_cons_self, true_and] at hiff
      exact Bool.eq_iff_iff.mpr hiff
    rw [List.filter_cons, List.filter_cons, hself, hfilter]

/-- What stands between two parts of a source, when the source is known by its parts. -/
theorem chars_of_eq {whole before pending cs : List Char}
    (hwhole : whole = before ++ pending ++ cs) :
    (Span.mk (Text.byteLength before) (Text.byteLength (before ++ pending))).chars whole =
      pending := by
  rw [hwhole, Text.byteLength_append]
  exact Span.chars_append before pending cs

/-- Edits that put a new name in the place of the tokens that are renamed, applied behind what is
copied already: the rest of the source has its names exchanged. -/
theorem splice_exchange {whole before pending cs : List Char} {new : String}
    (hwhole : whole = before ++ pending ++ cs) :
    TextEdit.splice whole (Text.byteLength before)
        (((tokensFrom (Text.byteLength (before ++ pending)) cs).filter renamed).map
          (⟨·.span, new⟩)) =
      pending ++ exchangeFrom renamed new.toList (Text.byteLength (before ++ pending)) cs := by
  induction hn : cs.length using Nat.strongRecOn generalizing before pending cs with
  | ind n ih =>
    cases cs with
    | nil =>
      have hchars := chars_of_eq hwhole
      rw [List.append_nil] at hwhole
      rw [tokensFrom_nil, List.filter_nil, List.map_nil, exchangeFrom_nil, List.append_nil,
        TextEdit.splice, ← hwhole] at *
      exact hchars
    | cons c cs =>
      have hlt := lexeme_rest_length c cs
      have happend := lexeme_append c cs
      rw [tokensFrom_cons, exchangeFrom]
      generalize lexeme c cs = x at hlt happend ⊢
      rw [← happend, ← List.append_assoc] at hwhole
      by_cases hren : renamed (x.token (Text.byteLength (before ++ pending))) = true
      · have hrest := @ih _ (hn ▸ hlt) (before ++ pending ++ x.taken) [] x.rest
          (by rw [hwhole, List.append_nil]) rfl
        have hchars := chars_of_eq (hwhole.trans (List.append_assoc ..))
        rw [List.append_nil, List.nil_append, Text.byteLength_append _ x.taken] at hrest
        rw [List.filter_cons_of_pos hren, List.map_cons, TextEdit.splice, if_neg ?_, if_pos hren]
        · simp only [Lexeme.token, List.append_assoc] at hrest hchars ⊢
          rw [hchars, hrest]
        · simp [Lexeme.token]
      · have hrest := @ih _ (hn ▸ hlt) before (pending ++ x.taken) x.rest
          (by rw [hwhole]; simp only [List.append_assoc]) rfl
        rw [← List.append_assoc, Text.byteLength_append _ x.taken, List.append_assoc] at hrest
        rw [List.filter_cons_of_neg hren, if_neg hren, hrest]

/-- Edits whose spans stand in order are applied as they are given. -/
theorem mergeSort_of_inOrder {edits : List TextEdit}
    (h : InOrder start stop (edits.map TextEdit.span)) : edits.mergeSort TextEdit.le = edits := by
  obtain ⟨-, hall, hpairs⟩ := inOrder_iff_pairwise.mp h
  refine List.mergeSort_of_pairwise ((List.pairwise_map.mp hpairs).imp_of_mem ?_)
  intro e f he _ hapart
  have hpos := (hall e.span (List.mem_map_of_mem he)).2.1
  have hlt : e.span.start < f.span.start := by omega
  simp [TextEdit.le, hlt]

/-- Edits that put a new name in the place of the tokens that are renamed make of a source the
source with its names exchanged. -/
theorem applyEdits_exchange (renamed : Token → Bool) (source new : String) :
    applyEdits source (((tokensFrom 0 source.toList).filter renamed).map (⟨·.span, new⟩)) =
      String.ofList (exchangeFrom renamed new.toList 0 source.toList) := by
  have hinOrder := (tiles_tokensFrom 0 source.toList).inOrder_of_sublist
    (List.filter_sublist (p := renamed))
  rw [applyEdits, mergeSort_of_inOrder (by rwa [List.map_map])]
  have hsplice := @splice_exchange renamed source.toList [] [] source.toList new rfl
  exact congrArg String.ofList hsplice

end CssWorkbench
