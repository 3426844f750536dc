import CssWorkbench.Proofs.Custom.Renaming
import CssWorkbench.Proofs.Custom.StoredValues

/-!
# Every occurrence is a handle

A cursor on the name of an occurrence finds that occurrence, whatever other references are around
it. Between two names stands a firm token, which is not empty, so that no offset touches two of
them, not even with the end of one and the start of the next.
-/

namespace CssWorkbench

variable {source : String} {start stop x : Nat} {p t : Token} {ts us : List Token}
  {o q : Occurrence} {os : List Occurrence} {d : Declaration}

/-- A name is no firm token. -/
theorem Token.not_isFirm_of_ident (h : t.kind = .ident) : t.isFirm = false := by
  simp [Token.isFirm, Token.isFunction, TokenKind.isFirm, h]

/-- No name starts where the name before it stops, and the first one not right behind a name. -/
theorem Named.apart (h : Named p ts us) (htiles : Tiles start stop ts) :
    (us.Pairwise fun t u => t.stop < u.start) ∧
      ∀ u ∈ us, start ≤ u.start ∧ (p.isFirm = false → start < u.start) := by
  induction h generalizing start with
  | nil => exact ⟨.nil, fun u hu => absurd hu List.not_mem_nil⟩
  | @skip p t ts us _ ih =>
    obtain ⟨hstart, hpos, hrest⟩ := htiles
    obtain ⟨hpairs, hbehind⟩ := ih hrest
    refine ⟨hpairs, fun u hu => ?_⟩
    have hle := (hbehind u hu).1
    omega
  | @take p t ts us firm kind _ _ ih =>
    obtain ⟨hstart, hpos, hrest⟩ := htiles
    obtain ⟨hpairs, hbehind⟩ := ih hrest
    have hlt : ∀ u ∈ us, t.stop < u.start := fun u hu =>
      (hbehind u hu).2 (Token.not_isFirm_of_ident kind)
    refine ⟨.cons hlt hpairs, fun u hu => ?_⟩
    rcases List.mem_cons.mp hu with rfl | hu
    · exact ⟨hstart.ge, fun hp => by rw [hp] at firm; cases firm⟩
    · have hle := hlt u hu
      omega

/-- The names of the occurrences stand in order and strictly apart. -/
theorem pairwise_nameSpan (source : String) :
    (parse source).1.occurrences.Pairwise fun o q => o.nameSpan.stop < q.nameSpan.start := by
  obtain ⟨us, hnamed, hlabels⟩ := exists_named_tokens source
  obtain ⟨hpairs, -⟩ := hnamed.apart (tiles_tokensFrom 0 source.toList)
  have hspans : (parse source).1.occurrences.map Occurrence.nameSpan = us.map Token.span := by
    have hsnd := congrArg (List.map Prod.snd) hlabels
    rwa [List.map_map, List.map_map] at hsnd
  have hpairs' : (us.map Token.span).Pairwise fun s t => s.stop < t.start :=
    List.pairwise_map.mpr hpairs
  rw [← hspans] at hpairs'
  exact List.pairwise_map.mp hpairs'

/-- No offset is on the names of two occurrences. -/
theorem eq_of_nameSpan_contains (ho : o ∈ (parse source).1.occurrences)
    (hq : q ∈ (parse source).1.occurrences) (hox : o.nameSpan.contains x = true)
    (hqx : q.nameSpan.contains x = true) : o = q := by
  have hapart := List.pairwise_iff_getElem.mp (pairwise_nameSpan source)
  obtain ⟨i, hi, rfl⟩ := List.getElem_of_mem ho
  obtain ⟨j, hj, rfl⟩ := List.getElem_of_mem hq
  rw [Span.contains_iff] at hox hqx
  rcases Nat.lt_trichotomy i j with hlt | rfl | hlt
  · have hbefore := hapart i j hi hj hlt
    omega
  · rfl
  · have hbefore := hapart j i hj hi hlt
    omega

/-- A reference runs from its opener past its name. -/
theorem exists_name_of_reference? (h : reference? t ts = some o) :
    ∃ name ∈ ts, o.nameSpan = name.span ∧ o.span.start = t.start ∧ name.stop ≤ o.span.stop := by
  unfold reference? at h
  split at h
  · split at h
    · rename_i name hfind
      split at h
      · obtain rfl := Option.some.inj h
        exact ⟨name, List.mem_of_find?_eq_some hfind, rfl, rfl, Nat.le_max_right ..⟩
      · cases h
    · cases h
  · cases h

/-- A reference among tiling tokens reaches around its name. -/
theorem covers_nameSpan_of_references (htiles : Tiles start stop ts) (ho : o ∈ references ts) :
    o.span.covers o.nameSpan = true := by
  induction ts generalizing start with
  | nil => cases ho
  | cons t ts ih =>
    obtain ⟨hstart, hpos, hrest⟩ := htiles
    rw [references] at ho
    split at ho
    · rename_i found hfound
      rcases List.mem_cons.mp ho with rfl | ho
      · obtain ⟨name, hname, hspan, hopener, hstop⟩ := exists_name_of_reference? hfound
        have hplace := hrest.of_mem hname
        rw [hspan, Span.covers_iff, hopener]
        exact ⟨hplace.1.trans' hpos.le, hstop⟩
      · exact ih hrest ho
    · exact ih hrest ho

/-- Every occurrence reaches around its name. -/
theorem covers_nameSpan (ho : o ∈ (parse source).1.occurrences) :
    o.span.covers o.nameSpan = true := by
  rw [occurrences_eq, List.mem_flatMap] at ho
  obtain ⟨d, hd, ho⟩ := ho
  rw [Declaration.occurrences, List.mem_append] at ho
  rcases ho with hwrite | hread
  · split at hwrite
    · obtain rfl := List.mem_singleton.mp hwrite
      exact Span.covers_iff.mpr ⟨Nat.le_refl _, Nat.le_refl _⟩
    · cases hwrite
  · -- The tokens of a value are some that follow one another in the source.
    have hreads := reads_parse source
    rw [dropLast_scan] at hreads
    obtain ⟨run, left, ⟨front, hfront⟩, -, hvalue⟩ := hreads.keptOfRun d hd
    have htokens : d.tokens = valueTokens run := by
      rw [Declaration.tokens, hvalue]
      exact tokens_of_ofTokens? _
    obtain ⟨behind, hrun, -⟩ := valueTokens_append run
    have htiles := tiles_tokensFrom 0 source.toList
    rw [← hfront, hrun, List.append_assoc] at htiles
    obtain ⟨_, -, hbehind⟩ := tiles_append.mp htiles
    obtain ⟨_, hvalueTiles, -⟩ := tiles_append.mp hbehind
    exact covers_nameSpan_of_references hvalueTiles (htokens ▸ hread)

namespace Occurrence

/-- The closest one is one of those that there are. -/
theorem mem_of_closest? (h : closest? x os = some o) : o ∈ os := by
  induction os with
  | nil => cases h
  | cons q os ih =>
    rw [closest?] at h
    split at h
    · rename_i p hp
      split at h
      · obtain rfl := Option.some.inj h
        exact List.mem_cons_of_mem _ (ih hp)
      · obtain rfl := Option.some.inj h
        exact List.mem_cons_self
    · obtain rfl := Option.some.inj h
      exact List.mem_cons_self

/-- The only occurrence that is touched on its name is the closest one. -/
theorem closest?_eq_some (ho : o ∈ os) (hon : o.nameSpan.contains x = true)
    (hoff : ∀ q ∈ os, q.nameSpan.contains x = true → q = o) : closest? x os = some o := by
  have hcloser : ∀ q ∈ os, q ≠ o → o.closer x q = true ∧ q.closer x o = false := by
    intro q hq hne
    have hqx : q.nameSpan.contains x = false :=
      Bool.eq_false_iff.mpr fun hqx => hne (hoff q hq hqx)
    simp [closer, hon, hqx]
  clear hoff
  induction os with
  | nil => cases ho
  | cons q os ih =>
    rw [closest?]
    by_cases hq : q = o
    · subst hq
      cases hfound : closest? x os with
      | none => rfl
      | some p =>
        by_cases hp : p = q
        · simp [hp]
        · have hmem := List.mem_cons_of_mem q (mem_of_closest? hfound)
          simp [(hcloser p hmem hp).2]
    · have hmem := (List.mem_cons.mp ho).resolve_left (Ne.symm hq)
      rw [ih hmem fun p hp => hcloser p (List.mem_cons_of_mem _ hp)]
      simp [(hcloser q List.mem_cons_self hq).1]

end Occurrence

/-- A cursor on the name of an occurrence finds that occurrence. -/
theorem occurrenceAt?_of_nameSpan (ho : o ∈ (parse source).1.occurrences)
    (hx : o.nameSpan.contains x = true) : (parse source).1.occurrenceAt? x = some o := by
  have hcovers := Span.covers_iff.mp (covers_nameSpan ho)
  have hname := Span.contains_iff.mp hx
  refine Occurrence.closest?_eq_some (List.mem_filter.mpr ⟨ho, ?_⟩) hx fun q hq hqx => ?_
  · exact Span.contains_iff.mpr ⟨by omega, by omega⟩
  · exact eq_of_nameSpan_contains (List.mem_of_mem_filter hq) ho hqx hx

/-- Every occurrence of a custom property that is found at some offset is an equally good handle:
anywhere on its name, both ends included, a cursor finds that occurrence, and with it the same
references, highlights and definitions, and the same edits for a renaming. -/
theorem occurrences_are_handles {source : String} {offset : Nat} {symbol : Occurrence}
    (hat : (parse source).1.occurrenceAt? offset = some symbol) :
    ∀ o ∈ (parse source).1.occurrencesOf symbol.name, ∀ x, o.nameSpan.contains x = true →
      (parse source).1.occurrenceAt? x = some o ∧
      (parse source).1.referencesAt x = (parse source).1.referencesAt offset ∧
      (parse source).1.highlightsAt x = (parse source).1.highlightsAt offset ∧
      (parse source).1.definitionsAt x = (parse source).1.definitionsAt offset ∧
      ∀ wanted, (parse source).1.rename? x wanted = (parse source).1.rename? offset wanted := by
  intro o ho x hx
  obtain ⟨hmem, hname⟩ : o ∈ (parse source).1.occurrences ∧ o.name = symbol.name := by
    simpa [Stylesheet.occurrencesOf] using ho
  have hfound := occurrenceAt?_of_nameSpan hmem hx
  have hlights : (parse source).1.highlightsAt x = (parse source).1.highlightsAt offset := by
    simp only [Stylesheet.highlightsAt, hfound, hat, hname]
  refine ⟨hfound, ?_, hlights, ?_, fun wanted => ?_⟩
  · rw [Stylesheet.referencesAt, hlights, Stylesheet.referencesAt]
  · rw [Stylesheet.definitionsAt, hlights, Stylesheet.definitionsAt]
  · rw [Stylesheet.rename?, hfound, Stylesheet.rename?, hat]
    cases customName? wanted with
    | none => rfl
    | some new => simp only [hname]

/-- In `a{--b:var(--c,var(--b))}` the inner reference is found at the end of its name, though the
outer one reaches around it, and it shares its handles with the declaration. -/
theorem occurrences_are_handles_of_fallback :
    (parse "a\x7b--b:var(--c,var(--b))\x7d").1.occurrenceAt? 2 =
        some ⟨"--b", ⟨2, 5⟩, ⟨2, 5⟩, .write⟩ ∧
      ⟨"--b", ⟨14, 22⟩, ⟨18, 21⟩, .read⟩ ∈
        (parse "a\x7b--b:var(--c,var(--b))\x7d").1.occurrencesOf "--b" ∧
      (Span.mk 18 21).contains 21 = true ∧
      (parse "a\x7b--b:var(--c,var(--b))\x7d").1.occurrenceAt? 21 =
        some ⟨"--b", ⟨14, 22⟩, ⟨18, 21⟩, .read⟩ ∧
      (parse "a\x7b--b:var(--c,var(--b))\x7d").1.rename? 21 "x" =
        (parse "a\x7b--b:var(--c,var(--b))\x7d").1.rename? 2 "x" := by
  have hat : (parse "a\x7b--b:var(--c,var(--b))\x7d").1.occurrenceAt? 2 =
      some ⟨"--b", ⟨2, 5⟩, ⟨2, 5⟩, .write⟩ := by cbv
  have hof : (parse "a\x7b--b:var(--c,var(--b))\x7d").1.occurrencesOf "--b" =
      [⟨"--b", ⟨2, 5⟩, ⟨2, 5⟩, .write⟩, ⟨"--b", ⟨14, 22⟩, ⟨18, 21⟩, .read⟩] := by cbv
  have hmem : ⟨"--b", ⟨14, 22⟩, ⟨18, 21⟩, .read⟩ ∈
      (parse "a\x7b--b:var(--c,var(--b))\x7d").1.occurrencesOf "--b" := by
    rw [hof]
    exact List.mem_cons_of_mem _ List.mem_cons_self
  obtain ⟨hfound, -, -, -, hrename⟩ := occurrences_are_handles hat _ hmem 21 rfl
  exact ⟨hat, hmem, rfl, hfound, hrename "x"⟩

end CssWorkbench
