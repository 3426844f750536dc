import Mathlib.Data.List.TakeWhile
import CssWorkbench.Proofs.Token.Lookahead

/-!
# Stretches in front of another text

A reader takes the same stretch in front of another text, as long as what made it stop is still
there. For an escape, a string or a url that is one character, and for a name or a number what
`Alike` keeps. The end of the text stops every reader.
-/

namespace CssWorkbench

variable {c d quote : Char} {cs ds front behind : List Char}

/-- The same stretch with another text behind it. -/
def Stretch.inFrontOf (s : Stretch) (ds : List Char) : Stretch :=
  ⟨s.taken, s.value, ds, s.malformed⟩

/-- In front of other text the same is taken. -/
@[simp] theorem Stretch.inFrontOf_taken (s : Stretch) : (s.inFrontOf ds).taken = s.taken := rfl

/-- In front of other text the value is the same. -/
@[simp] theorem Stretch.inFrontOf_value (s : Stretch) : (s.inFrontOf ds).value = s.value := rfl

/-- What is left in front of other text is that text. -/
@[simp] theorem Stretch.inFrontOf_rest (s : Stretch) : (s.inFrontOf ds).rest = ds := rfl

/-- What is taken behind something is so in front of other text, too. -/
theorem Stretch.after_inFrontOf (taken value : List Char) (s : Stretch) :
    (s.after taken value).inFrontOf ds = (s.inFrontOf ds).after taken value := rfl

/-- Two texts with the same front start alike. -/
theorem head?_append_congr (h : front = [] → ds.head? = cs.head?) :
    (front ++ ds).head? = (front ++ cs).head? := by
  cases front with
  | nil => exact h rfl
  | cons c front => rfl

/-- A bounded run is the same in front of other text that goes on in the same way. -/
theorem takeUpTo_sequel {p : Char → Bool} {limit : Nat}
    (h : SameNext (takeUpTo p limit cs).2 ds) :
    takeUpTo p limit ((takeUpTo p limit cs).1 ++ ds) = ((takeUpTo p limit cs).1, ds) := by
  fun_induction takeUpTo p limit cs with
  | case1 => rfl
  | case2 =>
    obtain rfl := h.eq_nil
    rfl
  | case3 limit c cs hc r ih => rw [List.cons_append, takeUpTo, if_pos hc, ih h]
  | case4 limit c cs hc =>
    rcases h.eq_nil_or_cons with rfl | ⟨es, rfl⟩
    · rfl
    · rw [List.nil_append, takeUpTo, if_neg hc]

/-- An escape takes something, unless the text ends. -/
theorem escape_taken_ne_nil (h : cs ≠ []) : (escape cs).taken ≠ [] := by
  obtain ⟨c, cs, rfl⟩ := List.exists_cons_of_ne_nil h
  rw [escape]
  split
  · rename_i hc
    have hdigits : (takeUpTo isHexDigit 6 (c :: cs)).1 ≠ [] := by simp [takeUpTo, hc]
    generalize takeUpTo isHexDigit 6 (c :: cs) = p at hdigits
    obtain ⟨digits, rest⟩ := p
    simp only at hdigits ⊢
    split
    · split <;> simp [hdigits]
    · exact hdigits
  · simp

/-- An escape starts with what the text starts with. -/
theorem escape_head? (ds : List Char) (h : cs ≠ []) :
    ((escape cs).taken ++ ds).head? = cs.head? := by
  obtain ⟨c, front, htaken⟩ := List.exists_cons_of_ne_nil (escape_taken_ne_nil h)
  have hsplit := escape_append cs
  rw [htaken] at hsplit ⊢
  exact hsplit ▸ rfl

/-- An escape ends at the same place in front of the same character and at the end of the text. -/
theorem escape_sequel (h : SameNext (escape cs).rest ds) :
    escape ((escape cs).taken ++ ds) = (escape cs).inFrontOf ds := by
  cases cs with
  | nil =>
    obtain rfl := h.eq_nil
    rfl
  | cons c cs =>
    by_cases hc : isHexDigit c = true
    · have hsplit := takeUpTo_append isHexDigit 6 (c :: cs)
      have hsequel := fun ds => @takeUpTo_sequel (c :: cs) ds isHexDigit 6
      have hdigits : (takeUpTo isHexDigit 6 (c :: cs)).1 ≠ [] := by simp [takeUpTo, hc]
      rw [escape, if_pos hc] at h ⊢
      generalize takeUpTo isHexDigit 6 (c :: cs) = p at h hsplit hsequel hdigits ⊢
      obtain ⟨digits, rest⟩ := p
      obtain ⟨d, digits, rfl⟩ := List.exists_cons_of_ne_nil hdigits
      obtain rfl : d = c := (List.cons.inj hsplit).1
      simp only at h hsequel ⊢
      cases rest with
      | nil =>
        obtain rfl := h.eq_nil
        rw [List.cons_append, escape, if_pos hc, ← List.cons_append, hsequel [] (.inl rfl)]
        rfl
      | cons b rest =>
        by_cases hb : Text.isAsciiBlank b = true
        · simp only [if_pos hb] at h ⊢
          rw [List.append_assoc, List.cons_append, escape, if_pos hc, ← List.cons_append,
            hsequel ([b] ++ ds) (.inr rfl)]
          simp only [List.singleton_append, if_pos hb]
          rfl
        · simp only [if_neg hb] at h ⊢
          rcases h.eq_nil_or_cons with rfl | ⟨es, rfl⟩
          · rw [List.cons_append, escape, if_pos hc, ← List.cons_append, hsequel [] (.inl rfl)]
            rfl
          · rw [List.cons_append, escape, if_pos hc, ← List.cons_append,
              hsequel (b :: es) (.inr rfl)]
            simp only [if_neg hb]
            rfl
    · rw [escape, if_neg hc] at h ⊢
      rw [List.singleton_append, escape, if_neg hc]
      rfl

/-- The characters end with a backslash and hexadecimal digits behind it: an escape that a blank
would still go with. -/
def endsInEscape (cs : List Char) : Bool :=
  (cs.reverse.dropWhile isHexDigit).head? = some '\\'

/-- A text that ends in a backslash ends in an escape. -/
theorem endsInEscape_of_getLast? (h : cs.getLast? = some '\\') : endsInEscape cs = true := by
  rw [← List.head?_reverse] at h
  obtain ⟨ds, hds⟩ := List.head?_eq_some_iff.mp h
  rw [endsInEscape, hds, List.dropWhile_cons_of_neg (by decide)]
  rfl

/-- What is put in front of an escape leaves it open. -/
theorem endsInEscape_append (front : List Char) (h : endsInEscape cs = true) :
    endsInEscape (front ++ cs) = true := by
  have hlast : (cs.reverse.dropWhile isHexDigit).head? = some '\\' := of_decide_eq_true h
  obtain ⟨ds, hds⟩ := List.head?_eq_some_iff.mp hlast
  rw [endsInEscape, List.reverse_append, List.dropWhile_append, hds]
  rfl

/-- A text that ends in an escape holds a backslash. -/
theorem mem_of_endsInEscape (h : endsInEscape cs = true) : '\\' ∈ cs := by
  have hlast : (cs.reverse.dropWhile isHexDigit).head? = some '\\' := of_decide_eq_true h
  exact List.mem_reverse.mp ((List.dropWhile_sublist _).mem (List.mem_of_head? hlast))

/-- Digits behind a backslash leave the escape open. -/
theorem endsInEscape_digits {digits : List Char} (h : ∀ d ∈ digits, isHexDigit d = true) :
    endsInEscape ('\\' :: digits) = true := by
  have hdrop : digits.reverse.dropWhile isHexDigit = [] :=
    List.dropWhile_eq_nil_iff.mpr fun d hd => h d (List.mem_reverse.mp hd)
  rw [endsInEscape, List.reverse_cons, List.dropWhile_append, hdrop]
  decide

/-- Digits are characters of names. -/
theorem isNameChar_of_isHexDigit (h : isHexDigit c = true) : isNameChar c = true := by
  simp only [isHexDigit, Bool.or_eq_true, Bool.and_eq_true, decide_eq_true_eq] at h
  delta isNameChar isNameStart Char.isAlpha Char.isUpper Char.isLower
  simp only [Bool.or_eq_true, Bool.and_eq_true, decide_eq_true_eq]
  rcases h with (hdigit | ⟨hlow, hhigh⟩) | ⟨hlow, hhigh⟩
  · exact .inl (.inr hdigit)
  · exact .inl (.inl (.inl (.inl (.inr ⟨hlow, Nat.le_trans hhigh (by decide)⟩))))
  · exact .inl (.inl (.inl (.inl (.inl ⟨hlow, Nat.le_trans hhigh (by decide)⟩))))

/-- All characters of a bounded run are of its class. -/
theorem takeUpTo_all (p : Char → Bool) (limit : Nat) (cs : List Char) :
    ∀ c ∈ (takeUpTo p limit cs).1, p c = true := by
  fun_induction takeUpTo p limit cs with
  | case1 | case2 | case4 => simp
  | case3 limit c cs hc r ih => exact List.forall_mem_cons.mpr ⟨hc, ih⟩

/-- An escape that is closed ends there whatever comes next. -/
theorem escape_sequel_of_closed (hclosed : endsInEscape ('\\' :: (escape cs).taken) = false) :
    escape ((escape cs).taken ++ ds) = (escape cs).inFrontOf ds := by
  cases cs with
  | nil => cases hclosed
  | cons c cs =>
    by_cases hc : isHexDigit c = true
    · have hsplit := takeUpTo_append isHexDigit 6 (c :: cs)
      have hall := takeUpTo_all isHexDigit 6 (c :: cs)
      have hsequel := fun ds => @takeUpTo_sequel (c :: cs) ds isHexDigit 6
      have hdigits : (takeUpTo isHexDigit 6 (c :: cs)).1 ≠ [] := by simp [takeUpTo, hc]
      rw [escape, if_pos hc] at hclosed ⊢
      generalize takeUpTo isHexDigit 6 (c :: cs) = p at hclosed hsplit hall hsequel hdigits ⊢
      obtain ⟨digits, rest⟩ := p
      obtain ⟨d, digits, rfl⟩ := List.exists_cons_of_ne_nil hdigits
      obtain rfl : d = c := (List.cons.inj hsplit).1
      simp only at hclosed hall hsequel ⊢
      cases rest with
      | nil =>
        rw [endsInEscape_digits hall] at hclosed
        cases hclosed
      | cons b rest =>
        by_cases hb : Text.isAsciiBlank b = true
        · simp only [if_pos hb]
          rw [List.append_assoc, List.cons_append, escape, if_pos hc, ← List.cons_append,
            hsequel ([b] ++ ds) (.inr rfl)]
          simp only [List.singleton_append, if_pos hb]
          rfl
        · simp only [if_neg hb] at hclosed
          rw [endsInEscape_digits hall] at hclosed
          cases hclosed
    · rw [escape, if_neg hc, List.singleton_append, escape, if_neg hc]
      rfl

/-- An escape starts with a backslash that something follows. -/
theorem startsEscape_cons (h : startsEscape (c :: cs) = true) : c = '\\' ∧ cs ≠ [] := by
  unfold startsEscape at h
  split at h
  · rename_i heq
    obtain ⟨rfl, rfl⟩ := List.cons.inj heq
    exact ⟨rfl, List.cons_ne_nil _ _⟩
  · cases h

/-- No name is taken where none starts. -/
theorem name_of_not_startsNamePart (h : startsNamePart cs = false) : name cs = .nothing cs := by
  cases cs with
  | nil => rw [name]
  | cons c cs =>
    simp only [startsNamePart, Bool.or_eq_false_iff] at h
    rw [name, if_neg (by simp [h.1]), if_neg (by simp [h.2])]

/-- Characters of names spell a name that ends where no part of a name follows. -/
theorem name_append_of_all (hfront : front.all isNameChar = true)
    (hstop : startsNamePart ds = false) : name (front ++ ds) = ⟨front, front, ds, false⟩ := by
  induction front with
  | nil => exact name_of_not_startsNamePart hstop
  | cons c front ih =>
    obtain ⟨hc, hrest⟩ : isNameChar c = true ∧ front.all isNameChar = true := by
      simpa using hfront
    rw [List.cons_append, name, if_pos hc, ih hrest]
    rfl

/-- A name ends at the same place where no part of a name follows; an escape that its end leaves
open wants the same character to follow, or none. -/
theorem name_sequel (hstop : startsNamePart ds = false)
    (hsame : endsInEscape (name cs).taken = true → SameNext (name cs).rest ds) :
    name ((name cs).taken ++ ds) = (name cs).inFrontOf ds := by
  fun_induction name cs with
  | case1 => exact name_of_not_startsNamePart hstop
  | case2 c cs hc ih =>
    have hrest := ih fun hopen => hsame (endsInEscape_append [c] hopen)
    rw [Stretch.after_taken, List.append_assoc, List.singleton_append, name, if_pos hc, hrest]
    rfl
  | case3 c cs hc hesc ih =>
    obtain ⟨rfl, hne⟩ := startsEscape_cons hesc
    have hrest := ih fun hopen => hsame (endsInEscape_append _ hopen)
    have hescape : escape ((escape cs).taken ++ ((name (escape cs).rest).taken ++ ds)) =
        (escape cs).inFrontOf ((name (escape cs).rest).taken ++ ds) := by
      have hsplit := name_append (escape cs).rest
      by_cases hopen : endsInEscape ('\\' :: (escape cs).taken) = true
      · -- What follows the escape is the rest of the name, or what follows the name.
        have hnext : SameNext ((name (escape cs).rest).taken ++ (name (escape cs).rest).rest)
            ((name (escape cs).rest).taken ++ ds) := .append fun htaken => hsame <| by
          rwa [Stretch.after_taken, htaken, List.append_nil]
        rw [hsplit] at hnext
        exact escape_sequel hnext
      · exact escape_sequel_of_closed (Bool.eq_false_iff.mpr hopen)
    have hfirst := escape_head? ((name (escape cs).rest).taken ++ ds) hne
    have hstart := (startsEscape_congr fun _ => hfirst).trans hesc
    rw [Stretch.after_taken, List.cons_append, List.cons_append, List.append_assoc, name,
      if_neg hc, if_pos hstart, hescape]
    simp only [Stretch.inFrontOf_taken, Stretch.inFrontOf_value, Stretch.inFrontOf_rest, hrest]
    rfl
  | case4 c cs hc hesc => exact name_of_not_startsNamePart hstop

/-- A comment that ends in front of another text ends there as well. -/
theorem commentTail_sequel (hend : (commentTail cs).rest = [] → ds = []) :
    commentTail ((commentTail cs).taken ++ ds) = (commentTail cs).inFrontOf ds := by
  fun_induction commentTail cs with
  | case1 =>
    obtain rfl := hend rfl
    rfl
  | case2 cs => rfl
  | case3 c cs hopen ih =>
    have hrest := ih hend
    have hhead : ((commentTail cs).taken ++ ds).head? = cs.head? := by
      refine (head?_append_congr fun htaken => ?_).trans (by rw [commentTail_append])
      have hsplit := commentTail_append cs
      rw [htaken, List.nil_append] at hsplit
      cases cs with
      | nil => rw [hend rfl]; rfl
      | cons d cs => exact absurd htaken (by unfold commentTail; split <;> simp_all)
    rw [Stretch.after_taken, List.append_assoc, List.singleton_append, commentTail, hrest]
    · rfl
    · intro ds' hc hds
      rw [hds] at hhead
      obtain ⟨ds', rfl⟩ := List.head?_eq_some_iff.mp hhead.symm
      exact hopen ds' hc rfl

/-- The body of a comment that is closed ends there whatever is put behind it. -/
theorem commentTail_closed (hclosed : (commentTail cs).taken = (commentTail cs).value ++ ['*', '/'])
    (ds : List Char) :
    commentTail ((commentTail cs).taken ++ ds) = (commentTail cs).inFrontOf ds := by
  fun_induction commentTail cs with
  | case1 => cases hclosed
  | case2 cs => rfl
  | case3 c cs hopen ih =>
    have hbody : (commentTail cs).taken = (commentTail cs).value ++ ['*', '/'] :=
      (List.cons.inj hclosed).2
    obtain ⟨d, body, htaken⟩ : ∃ d body, (commentTail cs).taken = d :: body := by
      rw [hbody]
      exact List.exists_cons_of_ne_nil (by simp)
    rw [Stretch.after_taken, List.append_assoc, List.singleton_append, commentTail, ih hbody]
    · rfl
    · intro es hc hes
      rw [htaken] at hes
      obtain rfl := (List.cons.inj hes).1
      have hcs := commentTail_append cs
      rw [htaken] at hcs
      exact hopen _ hc hcs.symm

/-! The ways in which the body of a string goes on. -/

/-- A string may end with the text. -/
theorem stringTail_nil : stringTail quote [] = .nothing [] := by
  rw [stringTail.eq_def]

/-- A string is closed by its quote. -/
theorem stringTail_quote : stringTail quote (quote :: cs) = ⟨[quote], [], cs, false⟩ := by
  rw [stringTail.eq_def]
  simp

/-- A string is broken by a line break, which is left. -/
theorem stringTail_lineBreak (hc : c ≠ quote) (hbreak : isLineBreak c = true) :
    stringTail quote (c :: cs) = ⟨[], [], c :: cs, true⟩ := by
  rw [stringTail.eq_def]
  simp [hc, hbreak]

/-- Any other character stands for itself in a string. -/
theorem stringTail_plain (hc : c ≠ quote) (hbreak : ¬ isLineBreak c = true) (hslash : c ≠ '\\') :
    stringTail quote (c :: cs) = (stringTail quote cs).after [c] [c] := by
  rw [stringTail.eq_def]
  simp [hc, hbreak, hslash]

/-- A backslash at the end of the text belongs to the string and means nothing. -/
theorem stringTail_slash_nil (hc : '\\' ≠ quote) :
    stringTail quote ['\\'] = ⟨['\\'], [], [], false⟩ := by
  rw [stringTail.eq_def]
  simp [hc, isLineBreak]

/-- A backslash and the two characters of a line break join two lines of a string. -/
theorem stringTail_slash_crlf (hc : '\\' ≠ quote) :
    stringTail quote ('\\' :: '\r' :: '\n' :: cs) =
      (stringTail quote cs).after ['\\', '\r', '\n'] [] := by
  rw [stringTail.eq_def]
  simp [hc, isLineBreak]

/-- A backslash and a line break join two lines of a string. -/
theorem stringTail_slash_lineBreak (hc : '\\' ≠ quote) (hbreak : isLineBreak d = true)
    (hcrlf : ∀ es, d = '\r' → ds ≠ '\n' :: es) :
    stringTail quote ('\\' :: d :: ds) = (stringTail quote ds).after ['\\', d] [] := by
  rw [stringTail.eq_def]
  split
  · contradiction
  · rename_i heq
    obtain ⟨rfl, rfl⟩ := List.cons.inj heq
    rw [if_neg hc, if_neg (by decide), if_pos rfl]
    split
    · contradiction
    · rename_i heq'
      obtain ⟨rfl, rfl⟩ := List.cons.inj heq'
      exact absurd rfl (hcrlf _ rfl)
    · rename_i heq'
      obtain ⟨rfl, rfl⟩ := List.cons.inj heq'
      rw [if_pos hbreak]

/-- A backslash and anything else are an escape in a string. -/
theorem stringTail_slash_escape (hc : '\\' ≠ quote) (hbreak : ¬ isLineBreak d = true) :
    stringTail quote ('\\' :: d :: ds) = (stringTail quote (escape (d :: ds)).rest).after
      ('\\' :: (escape (d :: ds)).taken) (escape (d :: ds)).value := by
  rw [stringTail.eq_def]
  split
  · contradiction
  · rename_i heq
    obtain ⟨rfl, rfl⟩ := List.cons.inj heq
    rw [if_neg hc, if_neg (by decide), if_pos rfl]
    split
    · contradiction
    · rename_i heq'
      obtain ⟨rfl, rfl⟩ := List.cons.inj heq'
      exact absurd rfl hbreak
    · rename_i heq'
      obtain ⟨rfl, rfl⟩ := List.cons.inj heq'
      rw [if_neg hbreak]

/-- A string takes something, unless the text ends or a line break comes first. -/
theorem stringTail_taken (htaken : (stringTail quote cs).taken = []) :
    (stringTail quote cs).rest = [] ∨ (stringTail quote cs).malformed = true := by
  fun_induction stringTail quote cs <;> simp_all [Stretch.nothing]

/-- What goes on behind a part of a string starts with the character that stood there. -/
theorem stringTail_next (hend : (stringTail quote cs).rest = [] → ds = [])
    (hbreak : (stringTail quote cs).malformed = true → SameNext (stringTail quote cs).rest ds) :
    SameNext cs ((stringTail quote cs).taken ++ ds) := by
  have hnext : SameNext ((stringTail quote cs).taken ++ (stringTail quote cs).rest)
      ((stringTail quote cs).taken ++ ds) := .append fun htaken => by
    rcases stringTail_taken htaken with hrest | hmalformed
    · exact .inl (hend hrest)
    · exact hbreak hmalformed
  rwa [stringTail_append] at hnext

/-- A string ends at the same place. One that is cut off wants a line break to follow; where the
text ends instead, nothing is wrong with it. -/
theorem stringTail_sequel (hend : (stringTail quote cs).rest = [] → ds = [])
    (hbreak : (stringTail quote cs).malformed = true → SameNext (stringTail quote cs).rest ds) :
    stringTail quote ((stringTail quote cs).taken ++ ds) =
      ⟨(stringTail quote cs).taken, (stringTail quote cs).value, ds,
        (stringTail quote cs).malformed && !ds.isEmpty⟩ := by
  fun_induction stringTail quote cs with
  | case1 =>
    obtain rfl := hend rfl
    exact stringTail_nil
  | case2 cs => exact stringTail_quote
  | case3 c cs hquote hc =>
    rcases (hbreak rfl).eq_nil_or_cons with rfl | ⟨es, rfl⟩
    · exact stringTail_nil
    · exact stringTail_lineBreak hquote hc
  | case4 hquote =>
    obtain rfl := hend rfl
    exact stringTail_slash_nil hquote
  | case5 cs hquote _ ih =>
    have hnew := @stringTail_slash_crlf quote ((stringTail quote cs).taken ++ ds) hquote
    rw [ih hend hbreak] at hnew
    exact hnew
  | case6 d es hcrlf hd hquote _ ih =>
    have hnew := @stringTail_slash_lineBreak d quote ((stringTail quote es).taken ++ ds) hquote hd
      fun fs hcr hfs => by
        have hnext : SameNext es ('\n' :: fs) := hfs ▸ stringTail_next hend hbreak
        rcases hnext with hnil | hhead
        · cases hnil
        · obtain ⟨gs, hgs⟩ := List.head?_eq_some_iff.mp hhead.symm
          exact hcrlf gs hcr hgs
    rw [ih hend hbreak] at hnew
    exact hnew
  | case7 d es _ hd hquote _ ih =>
    have hescape := escape_sequel (stringTail_next hend hbreak)
    have hne := List.cons_ne_nil d es
    have hfirst := escape_head? ((stringTail quote (escape (d :: es)).rest).taken ++ ds) hne
    obtain ⟨fs, hfs⟩ := List.head?_eq_some_iff.mp hfirst
    rw [Stretch.after_taken, List.cons_append, List.cons_append, List.append_assoc, hfs,
      stringTail_slash_escape hquote hd, ← hfs, hescape]
    simp only [Stretch.inFrontOf_taken, Stretch.inFrontOf_value, Stretch.inFrontOf_rest,
      ih hend hbreak]
    rfl
  | case8 c cs hquote hc hslash ih =>
    have hnew := @stringTail_plain c quote ((stringTail quote cs).taken ++ ds) hquote hc hslash
    rw [ih hend hbreak] at hnew
    exact hnew

/-- A string that is cut off has a line break behind it. -/
theorem stringTail_rest_ne_nil (h : (stringTail quote cs).malformed = true) :
    (stringTail quote cs).rest ≠ [] := by
  fun_induction stringTail quote cs <;> simp_all [Stretch.nothing, Stretch.after]

/-- In front of the same line break a string that is cut off stays so. -/
theorem stringTail_inFrontOf (hend : (stringTail quote cs).rest = [] → ds = [])
    (hbreak : (stringTail quote cs).malformed = true →
      ds.head? = (stringTail quote cs).rest.head?) :
    stringTail quote ((stringTail quote cs).taken ++ ds) = (stringTail quote cs).inFrontOf ds := by
  rw [stringTail_sequel hend fun hmalformed => .inr (hbreak hmalformed), Stretch.inFrontOf]
  by_cases hmalformed : (stringTail quote cs).malformed = true
  · have hne : ds ≠ [] := fun hnil => stringTail_rest_ne_nil hmalformed <|
      List.head?_eq_none_iff.mp ((hbreak hmalformed).symm.trans (List.head?_eq_none_iff.mpr hnil))
    simp [hmalformed, hne]
  · simp [hmalformed]

end CssWorkbench
