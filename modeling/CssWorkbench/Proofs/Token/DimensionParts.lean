import Mathlib
import CssWorkbench.Proofs.Token.KindCases
import CssWorkbench.Proofs.Token.Tail
import CssWorkbench.Proofs.Token.Words
import CssWorkbench.Token.Dimension

/-!
# The number and the unit of a dimension

A dimension is written as a number and a unit, and its token runs the number together with the
characters that the unit spells. The two are parted again where the longest number ends. That is
where the number was written to end, unless the number goes on in the unit: a unit that is written
with an escape can spell a digit at its front, or a point and a digit.
-/

namespace CssWorkbench

variable {c : Char} {cs digits number number' unit unit' text written behind : List Char}

/-- The text of a number without a sign: digits, or a point with digits on both sides, of which
those in front may be missing. -/
inductive IsUnsigned : List Char → Prop
  | whole {digits : List Char} (all : digits.all Char.isDigit = true) (nonempty : digits ≠ []) :
      IsUnsigned digits
  | fraction {digits fraction : List Char} (all : digits.all Char.isDigit = true)
      (more : fraction.all Char.isDigit = true) (nonempty : fraction ≠ []) :
      IsUnsigned (digits ++ '.' :: fraction)

/-- The text of a number, with the sign that it may have. -/
inductive IsNumberText : List Char → Prop
  | plain {cs : List Char} (unsigned : IsUnsigned cs) : IsNumberText cs
  | signed {c : Char} {cs : List Char} (sign : c = '+' ∨ c = '-') (unsigned : IsUnsigned cs) :
      IsNumberText (c :: cs)

/-- Whether a number goes on in a text behind it: the text starts with a digit, or the number has no
point and the text starts with a point and a digit. -/
def NumberGoesOn (number text : List Char) : Prop :=
  text.head?.any Char.isDigit = true ∨
    '.' ∉ number ∧ ∃ behind, text = '.' :: behind ∧ behind.head?.any Char.isDigit = true

/-- The text is a number with a name written against it that spells the unit. -/
structure SpellsDimension (text number unit : List Char) : Prop where
  isNumberText : IsNumberText number
  exists_written : ∃ written, text = number ++ written ∧ startsIdent written = true ∧
    (name written).taken = written ∧ (name written).value = unit

/-! ## Where a number ends -/

/-- Among digits there is nothing else. -/
theorem not_mem_of_all_isDigit (h : digits.all Char.isDigit = true) (hc : c.isDigit = false) :
    c ∉ digits := by
  intro hmem
  have hdigit := List.all_eq_true.mp h c hmem
  rw [hc] at hdigit
  cases hdigit

/-- Digits are the front of all digits of a text that they start. -/
theorem takeWhile_digits (h : digits.all Char.isDigit = true) (text : List Char) :
    (digits ++ text).takeWhile Char.isDigit = digits ++ text.takeWhile Char.isDigit ∧
      (digits ++ text).dropWhile Char.isDigit = text.dropWhile Char.isDigit := by
  have hall := List.all_eq_true.mp h
  exact ⟨List.takeWhile_append_of_pos hall, List.dropWhile_append_of_pos hall⟩

/-- Nothing is taken of a text exactly if it does not start with a digit. -/
theorem takeWhile_isDigit_eq_nil_iff :
    text.takeWhile Char.isDigit = [] ↔ text.head?.any Char.isDigit = false := by
  cases text with
  | nil => simp
  | cons d ds => cases hd : d.isDigit <;> simp [hd]

/-- A part of a text that is taken off its front is what is written there if nothing more is
taken. -/
theorem append_taken_eq_iff {taken left : List Char} (h : taken ++ left = text) :
    (number ++ taken, left) = (number, text) ↔ taken = [] := by
  constructor
  · intro heq
    exact List.append_right_eq_self.mp (Prod.mk.inj heq).1
  · rintro rfl
    rw [List.append_nil, ← h, List.nil_append]

/-- A number without a point ends in front of a text exactly if it does not go on there. -/
theorem splitUnsigned_digits_iff (h : digits.all Char.isDigit = true) (text : List Char) :
    splitUnsigned (digits ++ text) = (digits, text) ↔ ¬ NumberGoesOn digits text := by
  have hwhole := List.takeWhile_append_dropWhile (p := Char.isDigit) (l := text)
  have hpoint : '.' ∉ digits := not_mem_of_all_isDigit h (by decide)
  obtain ⟨htake, hdrop⟩ := takeWhile_digits h text
  by_cases hnext : ∃ d ds, text.dropWhile Char.isDigit = '.' :: d :: ds ∧ d.isDigit = true
  · obtain ⟨d, ds, heq, hd⟩ := hnext
    rw [splitUnsigned_point (hdrop.trans heq) hd, htake]
    refine iff_of_false (fun hsplit => ?_) (not_not_intro ?_)
    · have hfirst := (Prod.mk.inj hsplit).1
      rw [List.append_assoc] at hfirst
      simpa using List.append_right_eq_self.mp hfirst
    · by_cases hdigit : text.head?.any Char.isDigit = true
      · exact .inl hdigit
      · rw [takeWhile_isDigit_eq_nil_iff.mpr (Bool.eq_false_iff.mpr hdigit), heq] at hwhole
        exact .inr ⟨hpoint, d :: ds, hwhole.symm, hd⟩
  · rw [splitUnsigned_whole fun d ds heq => Bool.eq_false_iff.mpr fun hd =>
      hnext ⟨d, ds, hdrop.symm.trans heq, hd⟩, htake, hdrop, append_taken_eq_iff hwhole,
      takeWhile_isDigit_eq_nil_iff]
    refine ⟨fun hnone => ?_, fun hstops => Bool.eq_false_iff.mpr fun hd => hstops (.inl hd)⟩
    rintro (hdigit | ⟨-, behind, rfl, hbehind⟩)
    · exact absurd hdigit (by simp [hnone])
    · cases behind with
      | nil => cases hbehind
      | cons d ds => exact hnext ⟨d, ds, rfl, hbehind⟩

/-- A number with a point ends in front of a text exactly if it does not go on there. -/
theorem splitUnsigned_fraction_iff {fraction : List Char} (h : digits.all Char.isDigit = true)
    (hfraction : fraction.all Char.isDigit = true) (hne : fraction ≠ []) (text : List Char) :
    splitUnsigned (digits ++ '.' :: fraction ++ text) = (digits ++ '.' :: fraction, text) ↔
      ¬ NumberGoesOn (digits ++ '.' :: fraction) text := by
  have hwhole := List.takeWhile_append_dropWhile (p := Char.isDigit) (l := text)
  obtain ⟨d, ds, rfl⟩ := List.exists_cons_of_ne_nil hne
  have hd : d.isDigit = true := List.all_eq_true.mp hfraction d List.mem_cons_self
  obtain ⟨htake, hdrop⟩ := takeWhile_digits h ('.' :: d :: (ds ++ text))
  obtain ⟨htake', hdrop'⟩ := takeWhile_digits hfraction text
  rw [List.cons_append] at htake' hdrop'
  rw [List.append_assoc, List.cons_append, List.cons_append, splitUnsigned_point hdrop hd, htake,
    htake', hdrop', List.takeWhile_cons_of_neg (by decide), List.append_nil, ← List.cons_append,
    ← List.append_assoc, append_taken_eq_iff hwhole,
    takeWhile_isDigit_eq_nil_iff]
  constructor
  · rintro hnone (hdigit | ⟨hpoint, -⟩)
    · exact absurd hdigit (by simp [hnone])
    · exact hpoint (by simp)
  · exact fun hstops => Bool.eq_false_iff.mpr fun hdigit => hstops (.inl hdigit)

/-- A number without a sign ends in front of a text exactly if it does not go on there. -/
theorem IsUnsigned.split_iff (h : IsUnsigned number) (text : List Char) :
    splitUnsigned (number ++ text) = (number, text) ↔ ¬ NumberGoesOn number text := by
  cases h with
  | whole all => exact splitUnsigned_digits_iff all text
  | fraction all more nonempty => exact splitUnsigned_fraction_iff all more nonempty text

/-- A number without a sign starts with something else than a sign. -/
theorem IsUnsigned.head? (h : IsUnsigned number) :
    ∃ c cs, number = c :: cs ∧ ¬ (c = '+' || c = '-') = true := by
  have hdigit : ∀ {c : Char}, c.isDigit = true → ¬ (c = '+' || c = '-') = true := by
    intro c hc hsign
    rcases (by simpa using hsign : c = '+' ∨ c = '-') with rfl | rfl <;> cases hc
  cases h with
  | whole all nonempty =>
    obtain ⟨c, cs, rfl⟩ := List.exists_cons_of_ne_nil nonempty
    exact ⟨c, cs, rfl, hdigit (List.all_eq_true.mp all c List.mem_cons_self)⟩
  | @fraction digits =>
    cases digits with
    | nil => exact ⟨'.', _, rfl, by decide⟩
    | cons c cs => exact ⟨c, _, rfl, hdigit (List.all_eq_true.mp ‹_› c List.mem_cons_self)⟩

/-- A number ends in front of a text exactly if it does not go on there. -/
theorem IsNumberText.split_iff (h : IsNumberText number) (text : List Char) :
    splitNumber (number ++ text) = (number, text) ↔ ¬ NumberGoesOn number text := by
  cases h with
  | plain unsigned =>
    obtain ⟨c, cs, hnumber, hsign⟩ := unsigned.head?
    rw [← unsigned.split_iff text, hnumber, List.cons_append, splitNumber, if_neg hsign]
  | @signed c cs sign unsigned =>
    have hsign : (c = '+' || c = '-') = true := by simpa using sign
    have hpoint : '.' ∉ c :: cs ↔ '.' ∉ cs := by
      rcases sign with rfl | rfl <;> simp
    rw [NumberGoesOn, hpoint, ← NumberGoesOn, ← unsigned.split_iff text, List.cons_append,
      splitNumber, if_pos hsign]
    constructor
    · intro heq
      obtain ⟨hfirst, hrest⟩ := Prod.mk.inj heq
      exact Prod.ext (List.cons.inj hfirst).2 hrest
    · intro heq
      rw [heq]

/-! ## What the scanner takes for a number -/

/-- What is split off a text without a sign is a number without a sign. -/
theorem isUnsigned_splitUnsigned (h : startsUnsigned cs = true) :
    IsUnsigned (splitUnsigned cs).1 := by
  have hall : ∀ ds : List Char, (ds.takeWhile Char.isDigit).all Char.isDigit = true :=
    fun ds => List.all_takeWhile
  by_cases hpoint : ∃ d ds, cs.dropWhile Char.isDigit = '.' :: d :: ds ∧ d.isDigit = true
  · obtain ⟨d, ds, heq, hd⟩ := hpoint
    rw [splitUnsigned_point heq hd]
    exact .fraction (hall cs) (hall _) (by simp [hd])
  · have hne := splitUnsigned_ne_nil h
    rw [splitUnsigned_whole fun d ds heq => Bool.eq_false_iff.mpr fun hd =>
      hpoint ⟨d, ds, heq, hd⟩] at hne ⊢
    exact .whole (hall cs) hne

/-- What is split off a text is the text of a number. -/
theorem isNumberText_splitNumber (h : startsNumber cs = true) :
    IsNumberText (splitNumber cs).1 := by
  cases cs with
  | nil => cases h
  | cons c cs =>
    rw [startsNumber] at h
    rw [splitNumber]
    split
    · rename_i hc
      rw [if_pos hc] at h
      exact .signed (by simpa using hc) (isUnsigned_splitUnsigned h)
    · rename_i hc
      rw [if_neg hc] at h
      exact .plain (isUnsigned_splitUnsigned h)

/-- No number goes on in a text that starts an identifier. -/
theorem not_numberGoesOn_of_startsIdent (h : startsIdent text = true) (number : List Char) :
    ¬ NumberGoesOn number text := by
  cases text with
  | nil => cases h
  | cons c cs =>
    have hstart : c = '-' ∨ isNameStart c = true ∨ c = '\\' := by
      by_cases hdash : c = '-'
      · exact .inl hdash
      · rw [startsIdent_of_ne hdash, Bool.or_eq_true] at h
        refine .inr (h.imp_right fun hescape => ?_)
        exact (startsEscape_cons hescape).1
    have hdigit : c.isDigit = false ∧ c ≠ '.' := by
      rcases hstart with rfl | hstart | rfl
      · exact ⟨rfl, by decide⟩
      · exact ⟨isDigit_of_isNameStart hstart, ne_of_isNameStart hstart rfl⟩
      · exact ⟨rfl, by decide⟩
    rintro (hgoes | ⟨-, behind, heq, -⟩)
    · rw [List.head?_cons, Option.any_some, hdigit.1] at hgoes
      cases hgoes
    · exact hdigit.2 (List.cons.inj heq).1

/-- A text is a number with a unit in one way only. -/
theorem SpellsDimension.unique (h : SpellsDimension text number unit)
    (h' : SpellsDimension text number' unit') : number' = number ∧ unit' = unit := by
  obtain ⟨hnumber, written, rfl, hident, -, rfl⟩ := h
  obtain ⟨hnumber', written', htext, hident', -, rfl⟩ := h'
  have hsplit := (hnumber.split_iff written).mpr (not_numberGoesOn_of_startsIdent hident number)
  have hsplit' := (hnumber'.split_iff written').mpr (not_numberGoesOn_of_startsIdent hident' number')
  rw [← htext, hsplit] at hsplit'
  obtain ⟨rfl, rfl⟩ := Prod.mk.inj hsplit'
  exact ⟨rfl, rfl⟩

/-- A unit that is written without an escape spells itself. -/
theorem SpellsDimension.not_goesOn (h : SpellsDimension text number unit) (hplain : '\\' ∉ text) :
    ¬ NumberGoesOn number unit := by
  obtain ⟨-, written, rfl, hident, htaken, rfl⟩ := h
  have hself : (name written).value = (name written).taken := name_value_eq_taken (by
    rw [htaken]
    exact fun hmem => hplain (List.mem_append_right _ hmem))
  rw [hself, htaken]
  exact not_numberGoesOn_of_startsIdent hident number

/-- The text of a dimension is a number with a unit, and its value runs the two together. -/
theorem exists_spellsDimension {x : Lexeme} (hx : IsLexeme c cs x) (hkind : x.kind = .dimension) :
    ∃ number unit, SpellsDimension x.taken number unit ∧ x.value = number ++ unit := by
  obtain ⟨hnumber, rfl⟩ := hx.eq_numericLexeme (by rw [hkind]; rfl)
  by_cases hpercent : (splitNumber (c :: cs)).2.head? = some '%'
  · obtain ⟨behind, hrest⟩ := List.head?_eq_some_iff.mp hpercent
    rw [numericLexeme_percentage hrest] at hkind
    cases hkind
  by_cases hident : startsIdent (splitNumber (c :: cs)).2 = true
  · rw [numericLexeme_dimension hpercent hident]
    have hends : name ((name (splitNumber (c :: cs)).2).taken ++ []) =
        (name (splitNumber (c :: cs)).2).inFrontOf [] := name_sequel rfl fun _ => .inl rfl
    have hstarts : startsIdent ((name (splitNumber (c :: cs)).2).taken ++ []) = true :=
      startsIdent_append hident
    rw [List.append_nil] at hends hstarts
    exact ⟨_, _, ⟨isNumberText_splitNumber hnumber, _, rfl, hstarts, by rw [hends]; rfl,
      by rw [hends]; rfl⟩, rfl⟩
  · rw [numericLexeme_number hpercent (Bool.eq_false_iff.mpr hident)] at hkind
    cases hkind

/-! ## The parts of a scanned dimension -/

/-- The text of every dimension of a source is a number with a unit in one way. Parting the value of
the token gives back these two exactly if the number does not go on in the unit, and then they are
what the token says of its number and its unit. A number goes on only in a unit with an escape. -/
theorem splitDimension_scanned {source : String} {t : Token} (ht : t ∈ scan source)
    (hkind : t.kind = .dimension) :
    ∃ number unit, SpellsDimension (t.text source).toList number unit ∧
      (∀ number' unit', SpellsDimension (t.text source).toList number' unit' →
        number' = number ∧ unit' = unit) ∧
      (splitDimension t.value = (String.ofList number, String.ofList unit) ↔
        ¬ NumberGoesOn number unit) ∧
      (¬ NumberGoesOn number unit → t.number? = readFloat? (String.ofList number) ∧
        t.unit? = some (Text.lower (String.ofList unit))) ∧
      ('\\' ∉ (t.text source).toList → ¬ NumberGoesOn number unit) := by
  have hmem : t ∈ tokensFrom 0 source.toList := by
    rw [scan_eq_append] at ht
    refine (List.mem_append.mp ht).resolve_right fun heof => ?_
    rw [List.mem_singleton.mp heof] at hkind
    cases hkind
  obtain ⟨before, us, hsplit⟩ := List.append_of_mem hmem
  obtain ⟨_, htail⟩ := (hsplit ▸ tailOf_source source).append
  obtain ⟨c, front, x, -, hx, hread, -⟩ := htail.cons
  obtain ⟨number, unit, hspells, hvalue⟩ := exists_spellsDimension hx (hread.kind ▸ hkind)
  rw [← hread.text] at hspells
  have hparted : splitDimension t.value = (String.ofList number, String.ofList unit) ↔
      ¬ NumberGoesOn number unit := by
    rw [← hspells.isNumberText.split_iff unit, ← hvalue, splitDimension, hread.value,
      String.toList_ofList, Prod.ext_iff, Prod.ext_iff]
    simp only [String.ofList_inj]
  refine ⟨number, unit, hspells, fun _ _ h => hspells.unique h, hparted, fun hstops => ?_,
    hspells.not_goesOn⟩
  have hparts := hparted.mpr hstops
  exact ⟨by simp only [Token.number?, hkind, hparts],
    by simp only [Token.unit?, hkind, if_true, hparts]⟩

/-- A number with a point does not go on at a second one, even if an escape spells it. -/
theorem splitDimension_scanned_of_second_point :
    ⟨.dimension, ⟨0, 9⟩, "1.5.5x"⟩ ∈ scan "1.5\\2e 5x" ∧
      SpellsDimension "1.5\\2e 5x".toList ['1', '.', '5'] ['.', '5', 'x'] ∧
      splitDimension "1.5.5x" = ("1.5", ".5x") := by
  have hmem : (⟨.dimension, ⟨0, 9⟩, "1.5.5x"⟩ : Token) ∈ scan "1.5\\2e 5x" := by
    have hscan : scan "1.5\\2e 5x" = [⟨.dimension, ⟨0, 9⟩, "1.5.5x"⟩, .eof 9] := by cbv
    rw [hscan]
    exact List.mem_cons_self
  have hnumber : IsNumberText ['1', '.', '5'] :=
    .plain (@IsUnsigned.fraction ['1'] ['5'] rfl rfl (List.cons_ne_nil _ _))
  have hspelled : SpellsDimension "1.5\\2e 5x".toList ['1', '.', '5'] ['.', '5', 'x'] :=
    ⟨hnumber, ['\\', '2', 'e', ' ', '5', 'x'], by decide, by decide, by cbv, by cbv⟩
  have htext : (Token.text ⟨.dimension, ⟨0, 9⟩, "1.5.5x"⟩ "1.5\\2e 5x").toList =
      "1.5\\2e 5x".toList := by cbv
  obtain ⟨number, unit, -, hunique, hsplit, -⟩ := splitDimension_scanned hmem rfl
  obtain ⟨rfl, rfl⟩ := hunique _ _ (htext ▸ hspelled)
  exact ⟨hmem, hspelled, hsplit.mpr (by simp [NumberGoesOn])⟩

/-- The number `1` with a unit whose escape spells a digit: the digit is taken for one of the
number. -/
theorem splitDimension_merged_of_digit_escape :
    ¬ ∀ (source : String) (t : Token), t ∈ scan source → t.kind = .dimension →
      ∀ number unit, SpellsDimension (t.text source).toList number unit →
        splitDimension t.value = (String.ofList number, String.ofList unit) := by
  intro hsplit
  have hmem : (⟨.dimension, ⟨0, 7⟩, "11px"⟩ : Token) ∈ scan "1\\31 px" := by
    have hscan : scan "1\\31 px" = [⟨.dimension, ⟨0, 7⟩, "11px"⟩, .eof 7] := by cbv
    rw [hscan]
    exact List.mem_cons_self
  have hspelled : SpellsDimension "1\\31 px".toList ['1'] ['1', 'p', 'x'] :=
    ⟨.plain (.whole rfl (List.cons_ne_nil _ _)), ['\\', '3', '1', ' ', 'p', 'x'], by decide,
      by decide, by cbv, by cbv⟩
  have htext : (Token.text ⟨.dimension, ⟨0, 7⟩, "11px"⟩ "1\\31 px").toList =
      "1\\31 px".toList := by cbv
  have hparts := hsplit _ _ hmem rfl _ _ (htext ▸ hspelled)
  revert hparts
  decide

end CssWorkbench
