import CssWorkbench.Text.Blank

/-!
# Names, escapes, strings and urls

The readers of this module each take a stretch off the front of a text and say what it spells.
What they take and what they leave make up the text again, which the lemmas `…_append` state;
no reader looks at where in the source it stands.
-/

namespace CssWorkbench

/-- A digit of a hexadecimal number. -/
def isHexDigit (c : Char) : Bool :=
  c.isDigit || ('a' ≤ c && c ≤ 'f') || ('A' ≤ c && c ≤ 'F')

/-- A character that can open a name: an ASCII letter, an underscore, or anything outside
ASCII. -/
def isNameStart (c : Char) : Bool :=
  c.isAlpha || c = '_' || 0x80 ≤ c.toNat

/-- A character of a name. -/
def isNameChar (c : Char) : Bool :=
  isNameStart c || c.isDigit || c = '-'

/-- The line breaks of a string: line feed, carriage return and form feed. -/
def isLineBreak (c : Char) : Bool :=
  c = '\n' || c = '\r' || c = '\x0c'

/-- A stretch taken off the front of a text: its characters, the value they spell, what follows,
and whether the stretch is malformed. -/
structure Stretch where
  taken : List Char
  value : List Char
  rest : List Char
  malformed : Bool := false
deriving DecidableEq, Repr, Inhabited

namespace Stretch

/-- Nothing is taken. -/
def nothing (cs : List Char) : Stretch := ⟨[], [], cs, false⟩

/-- Put characters and their value in front of a stretch. -/
def after (taken value : List Char) (s : Stretch) : Stretch :=
  ⟨taken ++ s.taken, value ++ s.value, s.rest, s.malformed⟩

/-- What is taken behind something stands behind it. -/
@[simp] theorem after_taken (t v : List Char) (s : Stretch) :
    (s.after t v).taken = t ++ s.taken := rfl

/-- What is taken in front leaves the same rest. -/
@[simp] theorem after_rest (t v : List Char) (s : Stretch) : (s.after t v).rest = s.rest := rfl

end Stretch

/-- The value of a hexadecimal digit. -/
def hexValue (c : Char) : Nat :=
  if c.isDigit then c.toNat - '0'.toNat
  else if 'a' ≤ c then c.toNat - 'a'.toNat + 10
  else c.toNat - 'A'.toNat + 10

/-- The number that hexadecimal digits spell. -/
def hexNumber (digits : List Char) : Nat :=
  digits.foldl (fun n c => 16 * n + hexValue c) 0

/-- What stands for a character that an escape cannot name. -/
def replacementChar : Char := '\ufffd'

/-- The character with a code point; zero, a surrogate and a number past the last code point have
the replacement character. -/
def charOfCode (n : Nat) : Char :=
  if n ≠ 0 ∧ n.isValidChar then Char.ofNat n else replacementChar

/-- The leading characters that satisfy `p`, at most `limit` of them, and what follows. -/
def takeUpTo (p : Char → Bool) : Nat → List Char → List Char × List Char
  | 0, cs => ([], cs)
  | _ + 1, [] => ([], [])
  | limit + 1, c :: cs =>
    if p c then
      let r := takeUpTo p limit cs
      (c :: r.1, r.2)
    else ([], c :: cs)

/-- A bounded run and what follows it make up the text. -/
theorem takeUpTo_append (p : Char → Bool) (limit : Nat) (cs : List Char) :
    (takeUpTo p limit cs).1 ++ (takeUpTo p limit cs).2 = cs := by
  fun_induction takeUpTo p limit cs with
  | case1 | case2 | case4 => rfl
  | case3 limit c cs _ r ih => simpa using ih

/-- An escape, read behind its backslash: up to six hexadecimal digits with one blank behind
them, or any one character that stands for itself. -/
def escape : List Char → Stretch
  | [] => ⟨[], [replacementChar], [], false⟩
  | c :: cs =>
    if isHexDigit c then
      let (digits, rest) := takeUpTo isHexDigit 6 (c :: cs)
      let code := [charOfCode (hexNumber digits)]
      match rest with
      | b :: behind =>
        if Text.isAsciiBlank b then ⟨digits ++ [b], code, behind, false⟩
        else ⟨digits, code, b :: behind, false⟩
      | [] => ⟨digits, code, [], false⟩
    else ⟨[c], [c], cs, false⟩

/-- An escape and what follows it make up the text. -/
theorem escape_append (cs : List Char) : (escape cs).taken ++ (escape cs).rest = cs := by
  unfold escape
  split
  · rfl
  · rename_i c cs
    split
    · have h := takeUpTo_append isHexDigit 6 (c :: cs)
      generalize takeUpTo isHexDigit 6 (c :: cs) = p at h
      obtain ⟨digits, rest⟩ := p
      simp only at h ⊢
      split
      · split <;> simpa using h
      · simpa using h
    · rfl

/-- An escape leaves no more than there was. -/
theorem escape_rest_length (cs : List Char) : (escape cs).rest.length ≤ cs.length := by
  have h := congrArg List.length (escape_append cs)
  simp only [List.length_append] at h
  omega

/-- Whether an escape that a name may hold starts at the front: a backslash with a character
other than a line feed or carriage return behind it. -/
def startsEscape : List Char → Bool
  | '\\' :: c :: _ => c ≠ '\n' && c ≠ '\r'
  | _ => false

/-- Whether a name goes on at the front. -/
def startsNamePart : List Char → Bool
  | [] => false
  | c :: cs => isNameChar c || startsEscape (c :: cs)

/-- Whether an identifier starts at the front. -/
def startsIdent : List Char → Bool
  | '-' :: cs =>
    match cs with
    | [] => false
    | d :: _ => d = '-' || isNameStart d || startsEscape cs
  | c :: cs => isNameStart c || startsEscape (c :: cs)
  | [] => false

/-- The longest name at the front, with its escapes undone. -/
def name : List Char → Stretch
  | [] => Stretch.nothing []
  | c :: cs =>
    if isNameChar c then (name cs).after [c] [c]
    else if startsEscape (c :: cs) then
      (name (escape cs).rest).after (c :: (escape cs).taken) (escape cs).value
    else Stretch.nothing (c :: cs)
termination_by cs => cs.length
decreasing_by
  · simp
  · have := escape_rest_length cs
    simp only [List.length_cons]
    omega

/-- A name and what follows it make up the text. -/
theorem name_append (cs : List Char) : (name cs).taken ++ (name cs).rest = cs := by
  fun_induction name cs with
  | case1 => rfl
  | case2 c cs _ ih => simpa using ih
  | case3 c cs _ _ ih => simp [ih, escape_append]
  | case4 => rfl

/-- A name is not empty where one starts. -/
theorem name_taken_ne_nil {cs : List Char} (h : startsNamePart cs = true) :
    (name cs).taken ≠ [] := by
  cases cs with
  | nil => simp [startsNamePart] at h
  | cons c cs =>
    unfold name
    simp only [startsNamePart, Bool.or_eq_true] at h
    split
    · simp
    · split
      · simp
      · simp_all

/-- An identifier starts with a part of a name. -/
theorem startsNamePart_of_startsIdent {cs : List Char} (h : startsIdent cs = true) :
    startsNamePart cs = true := by
  unfold startsIdent at h
  split at h
  · simp [startsNamePart, isNameChar]
  · simp only [startsNamePart, isNameChar, Bool.or_eq_true] at h ⊢
    rcases h with h | h
    · exact .inl (.inl (.inl h))
    · exact .inr h
  · cases h

/-- The body of a comment behind its opening, up to and with the end of the comment or of the
text. -/
def commentTail : List Char → Stretch
  | [] => Stretch.nothing []
  | '*' :: '/' :: cs => ⟨['*', '/'], [], cs, false⟩
  | c :: cs => (commentTail cs).after [c] [c]

/-- A comment and what follows it make up the text. -/
theorem commentTail_append (cs : List Char) :
    (commentTail cs).taken ++ (commentTail cs).rest = cs := by
  fun_induction commentTail cs with
  | case1 | case2 => rfl
  | case3 c cs _ ih => simpa using ih

/-- The body of a string behind its opening quote, with the closing quote if there is one. A line
break cuts the string off, which is malformed then; the break itself is left. -/
def stringTail (quote : Char) : List Char → Stretch
  | [] => Stretch.nothing []
  | c :: cs =>
    if c = quote then ⟨[c], [], cs, false⟩
    else if isLineBreak c then ⟨[], [], c :: cs, true⟩
    else if c = '\\' then
      match cs with
      | [] => ⟨[c], [], [], false⟩
      | '\r' :: '\n' :: cs => (stringTail quote cs).after [c, '\r', '\n'] []
      | d :: ds =>
        if isLineBreak d then (stringTail quote ds).after [c, d] []
        else
          (stringTail quote (escape (d :: ds)).rest).after (c :: (escape (d :: ds)).taken)
            (escape (d :: ds)).value
    else (stringTail quote cs).after [c] [c]
termination_by cs => cs.length
decreasing_by
  all_goals try simp only [List.length_cons]
  all_goals try omega
  have := escape_rest_length (d :: ds)
  simp only [List.length_cons] at this
  omega

/-- A string and what follows it make up the text. -/
theorem stringTail_append (quote : Char) (cs : List Char) :
    (stringTail quote cs).taken ++ (stringTail quote cs).rest = cs := by
  fun_induction stringTail quote cs <;> simp_all [Stretch.nothing, escape_append]

/-- What is left of a malformed url: everything up to and with the first `)` without a backslash
before it. -/
def badUrlTail : List Char → Stretch
  | [] => ⟨[], [], [], true⟩
  | ')' :: cs => ⟨[')'], [], cs, true⟩
  | '\\' :: c :: cs => (badUrlTail cs).after ['\\', c] []
  | c :: cs => (badUrlTail cs).after [c] []

/-- A broken URL and what follows it make up the text. -/
theorem badUrlTail_append (cs : List Char) :
    (badUrlTail cs).taken ++ (badUrlTail cs).rest = cs := by
  fun_induction badUrlTail cs <;> simp_all

/-- A character that an unquoted url cannot hold. -/
def breaksUrl (c : Char) : Bool :=
  c = '"' || c = '\'' || c = '(' || c = '\\'

/-- The end of an unquoted url behind blanks: the end of the text or `)`. Anything else makes the
url malformed. -/
def urlEnd : List Char → Stretch
  | [] => Stretch.nothing []
  | c :: cs => if c = ')' then ⟨[c], [], cs, false⟩ else badUrlTail (c :: cs)

/-- The end of a URL and what follows it make up the text. -/
theorem urlEnd_append (cs : List Char) : (urlEnd cs).taken ++ (urlEnd cs).rest = cs := by
  unfold urlEnd
  split
  · rfl
  · split
    · rfl
    · exact badUrlTail_append _

/-- The body of an unquoted url behind the blanks that may open it, with the closing `)` if there
is one. -/
def urlTail : List Char → Stretch
  | [] => Stretch.nothing []
  | c :: cs =>
    if c = ')' then ⟨[c], [], cs, false⟩
    else if c = '\\' && cs.head?.any (· ≠ '\n') then
      (urlTail (escape cs).rest).after (c :: (escape cs).taken) (escape cs).value
    else if Text.isAsciiBlank c then
      (urlEnd ((c :: cs).dropWhile Text.isAsciiBlank)).after
        ((c :: cs).takeWhile Text.isAsciiBlank) []
    else if breaksUrl c then badUrlTail (c :: cs)
    else (urlTail cs).after [c] [c]
termination_by cs => cs.length
decreasing_by
  · have := escape_rest_length cs
    simp only [List.length_cons]
    omega
  · simp

/-- A URL and what follows it make up the text. -/
theorem urlTail_append (cs : List Char) : (urlTail cs).taken ++ (urlTail cs).rest = cs := by
  fun_induction urlTail cs with
  | case1 | case2 => rfl
  | case3 c cs _ _ ih => simp [ih, escape_append]
  | case4 c cs => simp [urlEnd_append]
  | case5 c cs => exact badUrlTail_append (c :: cs)
  | case6 c cs _ _ _ _ ih => simp [ih]

/-- The longest text of a number without a sign: digits, and a point with digits behind it. -/
def splitUnsigned (cs : List Char) : List Char × List Char :=
  let whole := cs.takeWhile Char.isDigit
  match cs.dropWhile Char.isDigit with
  | '.' :: d :: ds =>
    if d.isDigit then
      (whole ++ '.' :: (d :: ds).takeWhile Char.isDigit, (d :: ds).dropWhile Char.isDigit)
    else (whole, '.' :: d :: ds)
  | rest => (whole, rest)

/-- The longest text of a number at the front, with its sign. -/
def splitNumber : List Char → List Char × List Char
  | [] => ([], [])
  | c :: cs =>
    if c = '+' || c = '-' then (c :: (splitUnsigned cs).1, (splitUnsigned cs).2)
    else splitUnsigned (c :: cs)

/-- Whether a number without a sign starts at the front. -/
def startsUnsigned : List Char → Bool
  | '.' :: d :: _ => d.isDigit
  | d :: _ => d.isDigit
  | [] => false

/-- Whether a number starts at the front. -/
def startsNumber : List Char → Bool
  | [] => false
  | c :: cs => if c = '+' || c = '-' then startsUnsigned cs else startsUnsigned (c :: cs)

/-- A number without a sign and what follows it make up the text. -/
theorem splitUnsigned_append (cs : List Char) :
    (splitUnsigned cs).1 ++ (splitUnsigned cs).2 = cs := by
  have whole := List.takeWhile_append_dropWhile (p := Char.isDigit) (l := cs)
  unfold splitUnsigned
  simp only
  split
  · rename_i d ds h
    rw [h] at whole
    split
    · have := List.takeWhile_append_dropWhile (p := Char.isDigit) (l := d :: ds)
      rw [List.append_assoc, List.cons_append, this, whole]
    · exact whole
  · exact whole

/-- A number and what follows it make up the text. -/
theorem splitNumber_append (cs : List Char) :
    (splitNumber cs).1 ++ (splitNumber cs).2 = cs := by
  cases cs with
  | nil => rfl
  | cons c cs =>
    simp only [splitNumber]
    split
    · simp [splitUnsigned_append]
    · exact splitUnsigned_append (c :: cs)

/-- The text of a number is not empty where one starts. -/
theorem splitUnsigned_ne_nil {cs : List Char} (h : startsUnsigned cs = true) :
    (splitUnsigned cs).1 ≠ [] := by
  unfold startsUnsigned at h
  split at h
  · rename_i d ds
    have point : Char.isDigit '.' = false := by decide
    simp [splitUnsigned, point, h]
  · rename_i d ds _
    unfold splitUnsigned
    simp only
    split
    · split <;> simp [h]
    · simp [h]
  · cases h

/-- A number that starts is not empty. -/
theorem splitNumber_ne_nil {cs : List Char} (h : startsNumber cs = true) :
    (splitNumber cs).1 ≠ [] := by
  cases cs with
  | nil => cases h
  | cons c cs =>
    simp only [splitNumber]
    simp only [startsNumber] at h
    split
    · simp
    · rename_i hc
      rw [if_neg hc] at h
      exact splitUnsigned_ne_nil h

end CssWorkbench
