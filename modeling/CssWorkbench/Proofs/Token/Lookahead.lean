import CssWorkbench.Token.Scanner

/-!
# Looking ahead of a token

Whether a token goes on is decided by the next three characters at most. `Alike n` relates what
stands behind a token to what may stand there instead: as far as `n` characters go, both texts
have the same ones, or the second one ends or breaks off with a character that no token takes in. A
scanner that stops in front of the first text then stops in front of the second one too.
-/

namespace CssWorkbench

/-- Characters that end every number and every name in front of them. -/
def isInert (c : Char) : Bool :=
  Text.isAsciiBlank c || c = '{' || c = '}' || c = ';' || c = ':' || c = ',' || c = ')'

/-- The same character comes next in both texts, unless the second one ends. -/
def SameNext (cs ds : List Char) : Prop := ds = [] ∨ ds.head? = cs.head?

/-- The second text may stand in the place of the first one, as far as `n` characters tell. Behind
a backslash no other character comes next: an escape would take it in. Behind the character that an
escape takes in nothing is looked at. -/
inductive Alike : Nat → List Char → List Char → Prop
  | ended {n : Nat} {cs : List Char} : Alike n cs []
  | far {cs ds : List Char} (nonempty : cs ≠ []) : Alike 0 cs ds
  | inert {n : Nat} {c : Char} {cs ds : List Char} (nonempty : cs ≠ []) (hc : isInert c = true) :
      Alike n cs (c :: ds)
  | same {n : Nat} {c : Char} {cs ds : List Char}
      (escaped : c = '\\' → SameNext cs ds) (behind : Alike n cs ds) :
      Alike (n + 1) (c :: cs) (c :: ds)
  | escape {n : Nat} {c : Char} {cs ds : List Char} (starts : c ≠ '\n' ∧ c ≠ '\r') :
      Alike n ('\\' :: c :: cs) ('\\' :: c :: ds)

variable {m n : Nat} {c : Char} {cs ds front : List Char}

/-- Only a text that ends goes on like one that ends. -/
theorem SameNext.eq_nil (h : SameNext [] ds) : ds = [] :=
  h.elim id List.head?_eq_none_iff.mp

/-- A text that goes on like another one ends, or starts with the same character. -/
theorem SameNext.eq_nil_or_cons (h : SameNext (c :: cs) ds) : ds = [] ∨ ∃ es, ds = c :: es :=
  h.imp_right List.head?_eq_some_iff.mp

/-- Behind the same characters the same one comes next, if there are any. -/
theorem SameNext.append (h : front = [] → SameNext cs ds) :
    SameNext (front ++ cs) (front ++ ds) := by
  cases front with
  | nil => exact h rfl
  | cons c front => exact .inr rfl

/-- Looking less far ahead tells less. -/
theorem Alike.mono (h : Alike n cs ds) (hle : m ≤ n) : Alike m cs ds := by
  induction h generalizing m with
  | ended => exact .ended
  | far nonempty =>
    obtain rfl := Nat.le_zero.mp hle
    exact .far nonempty
  | inert nonempty hc => exact .inert nonempty hc
  | same escaped behind ih =>
    cases m with
    | zero => exact .far (List.cons_ne_nil _ _)
    | succ m => exact .same escaped (ih (Nat.le_of_succ_le_succ hle))
  | escape starts => exact .escape starts

/-- The same characters in front of both texts keep them alike. -/
theorem Alike.append (h : Alike n cs ds)
    (hsame : front.getLast? = some '\\' → SameNext cs ds) :
    Alike n (front ++ cs) (front ++ ds) := by
  induction front generalizing n with
  | nil => exact h
  | cons c front ih =>
    cases n with
    | zero => exact .far (List.cons_ne_nil _ _)
    | succ n =>
      cases front with
      | nil => exact .same (fun hc => hsame (hc ▸ rfl)) (h.mono (Nat.le_succ n))
      | cons d front =>
        refine .same (fun _ => .inr rfl) (ih (h.mono (Nat.le_succ n)) fun hlast => ?_)
        exact hsame (by rw [List.getLast?_cons_cons, hlast])

/-- As many characters as are looked at in front of two texts hide both of them. -/
theorem Alike.of_length_le (hlength : n ≤ front.length) (hne : cs ≠ [])
    (hlast : front.getLast? = some '\\' → SameNext cs ds) :
    Alike n (front ++ cs) (front ++ ds) := by
  induction front generalizing n with
  | nil =>
    obtain rfl := Nat.le_zero.mp hlength
    exact .far hne
  | cons c front ih =>
    cases n with
    | zero => exact .far (List.cons_ne_nil _ _)
    | succ n =>
      cases front with
      | nil =>
        obtain rfl := Nat.le_zero.mp (Nat.le_of_succ_le_succ hlength)
        exact .same (fun hc => hlast (hc ▸ rfl)) (.far hne)
      | cons d front =>
        refine .same (fun _ => .inr rfl) (ih (Nat.le_of_succ_le_succ hlength) fun hgetLast => ?_)
        exact hlast (by rw [List.getLast?_cons_cons, hgetLast])

/-- A text may stand in its own place. -/
theorem Alike.refl (n : Nat) (cs : List Char) : Alike n cs cs := by
  induction cs generalizing n with
  | nil => exact .ended
  | cons c cs ih =>
    cases n with
    | zero => exact .far (List.cons_ne_nil _ _)
    | succ n => exact .same (fun _ => .inr rfl) (ih n)

/-- Where nothing follows, nothing may follow. -/
theorem Alike.eq_nil (h : Alike n [] ds) : ds = [] := by
  cases h with
  | ended => rfl
  | far nonempty | inert nonempty => exact absurd rfl nonempty

/-- A test of the next character that no inert character passes. -/
theorem Alike.head?_any_eq_false (h : Alike (n + 1) cs ds) {p : Char → Bool}
    (hp : ∀ c, isInert c = true → p c = false) (hcs : cs.head?.any p = false) :
    ds.head?.any p = false := by
  cases h with
  | ended => rfl
  | inert _ hc => simpa using hp _ hc
  | same | escape => exact hcs

/-- Where a character that is not inert does not come next, it does not come next either. -/
theorem Alike.head?_ne {d : Char} (h : Alike (n + 1) cs ds) (hd : isInert d = false)
    (hcs : cs.head? ≠ some d) : ds.head? ≠ some d := by
  cases h with
  | ended => exact nofun
  | @inert _ c _ _ _ hc =>
    intro heq
    rw [Option.some.inj heq, hd] at hc
    cases hc
  | same | escape => exact hcs

/-- The characters that are inert, one by one. -/
theorem isInert_cases (h : isInert c = true) : c = ' ' ∨ c = '\t' ∨ c = '\n' ∨ c = '\x0c' ∨
    c = '\r' ∨ c = '{' ∨ c = '}' ∨ c = ';' ∨ c = ':' ∨ c = ',' ∨ c = ')' := by
  simpa [isInert, Text.isAsciiBlank, or_assoc] using h

/-- A character that ends every token stands in no name. -/
theorem isNameChar_of_isInert (h : isInert c = true) : isNameChar c = false := by
  rcases isInert_cases h with rfl | rfl | rfl | rfl | rfl | rfl | rfl | rfl | rfl | rfl | rfl <;>
    decide

/-- A character that ends every token is no digit. -/
theorem isDigit_of_isInert (h : isInert c = true) : c.isDigit = false := by
  rcases isInert_cases h with rfl | rfl | rfl | rfl | rfl | rfl | rfl | rfl | rfl | rfl | rfl <;>
    decide

/-- No inert character is one of those that are looked for behind a token. -/
theorem ne_of_isInert (h : isInert c = true) : c ≠ '\\' ∧ c ≠ '.' ∧ c ≠ '-' ∧ c ≠ '+' ∧ c ≠ '(' ∧
    c ≠ '%' ∧ c ≠ '*' ∧ c ≠ '!' ∧ c ≠ '>' ∧ c ≠ '/' ∧ c ≠ '"' ∧ c ≠ '\'' := by
  rcases isInert_cases h with rfl | rfl | rfl | rfl | rfl | rfl | rfl | rfl | rfl | rfl | rfl <;>
    decide

/-- Only a backslash starts an escape. -/
theorem startsEscape_of_ne (h : c ≠ '\\') : startsEscape (c :: cs) = false := by
  unfold startsEscape
  split
  · rename_i heq
    exact absurd (List.cons.inj heq).1 h
  · rfl

/-- An escape starts with a backslash, and what comes next decides. -/
theorem startsEscape_congr (hsame : c = '\\' → ds.head? = cs.head?) :
    startsEscape (c :: ds) = startsEscape (c :: cs) := by
  by_cases hc : c = '\\'
  · have h := hsame hc
    subst hc
    cases cs with
    | nil =>
      obtain rfl : ds = [] := by simpa using h
      rfl
    | cons d cs =>
      obtain ⟨ds, rfl⟩ := List.head?_eq_some_iff.mp (h.trans List.head?_cons)
      rfl
  · rw [startsEscape_of_ne hc, startsEscape_of_ne hc]

/-- No escape starts where none did, if the same character comes next or none. -/
theorem startsEscape_eq_false (hsame : c = '\\' → SameNext cs ds)
    (hcs : startsEscape (c :: cs) = false) : startsEscape (c :: ds) = false := by
  by_cases hc : c = '\\'
  · rcases hsame hc with rfl | hnext
    · subst hc
      rfl
    · rwa [startsEscape_congr fun _ => hnext]
  · exact startsEscape_of_ne hc

/-- A backslash starts an escape with anything but a line break behind it. -/
theorem startsEscape_slash (hc : c ≠ '\n' ∧ c ≠ '\r') : startsEscape ('\\' :: c :: cs) = true := by
  simp [startsEscape, hc]

/-- A name that stops in front of the first text stops in front of the second one. -/
theorem Alike.startsNamePart_eq_false (h : Alike (n + 1) cs ds) (hcs : startsNamePart cs = false) :
    startsNamePart ds = false := by
  cases h with
  | ended => rfl
  | inert _ hc =>
    rw [startsNamePart, isNameChar_of_isInert hc,
      startsEscape_of_ne (ne_of_isInert hc).1]
    rfl
  | same escaped behind =>
    rw [startsNamePart, Bool.or_eq_false_iff] at hcs ⊢
    exact hcs.imp_right (startsEscape_eq_false escaped)
  | escape starts => rw [startsNamePart, startsEscape_slash starts, Bool.or_true] at hcs; cases hcs

/-- A character that ends every token starts no name. -/
theorem isNameStart_of_isInert (h : isInert c = true) : isNameStart c = false := by
  have hname := isNameChar_of_isInert h
  simp only [isNameChar, Bool.or_eq_false_iff] at hname
  exact hname.1.1

/-- A name that does not start with a dash starts with its first character or an escape. -/
theorem startsIdent_of_ne (h : c ≠ '-') :
    startsIdent (c :: cs) = (isNameStart c || startsEscape (c :: cs)) := by
  unfold startsIdent
  split
  · rename_i heq
    exact absurd (List.cons.inj heq).1 h
  · rename_i heq
    obtain ⟨rfl, rfl⟩ := List.cons.inj heq
    rfl
  · rename_i heq
    cases heq

/-- Behind a dash a name goes on with another dash, a first character or an escape. -/
theorem startsIdent_dash {d : Char} :
    startsIdent ('-' :: d :: cs) = (d = '-' || isNameStart d || startsEscape (d :: cs)) := rfl

/-- Where no identifier starts in the first text, none starts in the second one. -/
theorem Alike.startsIdent_eq_false (h : Alike (n + 2) cs ds) (hcs : startsIdent cs = false) :
    startsIdent ds = false := by
  cases h with
  | ended => rfl
  | inert _ hc =>
    obtain ⟨hslash, -, hdash, -⟩ := ne_of_isInert hc
    rw [startsIdent_of_ne hdash, isNameStart_of_isInert hc, startsEscape_of_ne hslash]
    rfl
  | @same _ c cs ds escaped behind =>
    by_cases hc : c = '-'
    · subst hc
      cases behind with
      | ended => rfl
      | inert _ hd =>
        obtain ⟨hslash, -, hdash, -⟩ := ne_of_isInert hd
        rw [startsIdent_dash, isNameStart_of_isInert hd, startsEscape_of_ne hslash]
        simpa using hdash
      | same escaped' =>
        rw [startsIdent_dash, Bool.or_eq_false_iff] at hcs ⊢
        exact hcs.imp_right (startsEscape_eq_false escaped')
      | escape starts =>
        rw [startsIdent_dash, startsEscape_slash starts, Bool.or_true] at hcs
        cases hcs
    · rw [startsIdent_of_ne hc, Bool.or_eq_false_iff] at hcs ⊢
      exact hcs.imp_right (startsEscape_eq_false escaped)
  | escape starts =>
    rw [startsIdent_of_ne (by decide), startsEscape_slash starts, Bool.or_true] at hcs
    cases hcs

/-- A number without a sign that does not start with a point starts with a digit. -/
theorem startsUnsigned_of_ne (h : c ≠ '.') : startsUnsigned (c :: cs) = c.isDigit := by
  unfold startsUnsigned
  split
  · rename_i heq
    exact absurd (List.cons.inj heq).1 h
  · rename_i heq
    rw [(List.cons.inj heq).1]
  · rename_i heq
    cases heq

/-- Behind a point a number goes on with a digit. -/
theorem startsUnsigned_dot : startsUnsigned ('.' :: cs) = cs.head?.any Char.isDigit := by
  cases cs with
  | nil => rfl
  | cons d cs => rfl

/-- Where no number without a sign starts in the first text, none starts in the second one. -/
theorem Alike.startsUnsigned_eq_false (h : Alike (n + 2) cs ds) (hcs : startsUnsigned cs = false) :
    startsUnsigned ds = false := by
  cases h with
  | ended => rfl
  | inert _ hc => rw [startsUnsigned_of_ne (ne_of_isInert hc).2.1, isDigit_of_isInert hc]
  | @same _ c cs ds escaped behind =>
    by_cases hc : c = '.'
    · subst hc
      rw [startsUnsigned_dot] at hcs ⊢
      exact behind.head?_any_eq_false (fun _ => isDigit_of_isInert) hcs
    · rwa [startsUnsigned_of_ne hc] at hcs ⊢
  | escape => rw [startsUnsigned_of_ne (by decide)]; decide

/-- Where no number starts in the first text, none starts in the second one. -/
theorem Alike.startsNumber_eq_false (h : Alike (n + 3) cs ds) (hcs : startsNumber cs = false) :
    startsNumber ds = false := by
  cases h with
  | ended => rfl
  | inert _ hc =>
    obtain ⟨-, hdot, hdash, hplus, -⟩ := ne_of_isInert hc
    rw [startsNumber, if_neg (by simp [hplus, hdash]), startsUnsigned_of_ne hdot,
      isDigit_of_isInert hc]
  | @same _ c cs ds escaped behind =>
    rw [startsNumber] at hcs ⊢
    split at hcs
    · rename_i hsign
      rw [if_pos hsign]
      exact behind.startsUnsigned_eq_false hcs
    · rename_i hsign
      rw [if_neg hsign]
      exact (Alike.same escaped (behind.mono (Nat.le_succ _))).startsUnsigned_eq_false hcs
  | escape => rw [startsNumber, if_neg (by decide), startsUnsigned_of_ne (by decide)]; decide

/-- A text that the first one does not start with is none that the second one starts with. -/
theorem Alike.isPrefixOf_eq_false {p : List Char} (h : Alike n cs ds) (hlength : p.length ≤ n)
    (hinert : p.any (fun c => isInert c || c = '\\') = false) (hcs : p.isPrefixOf cs = false) :
    p.isPrefixOf ds = false := by
  induction p generalizing n cs ds with
  | nil => cases hcs
  | cons d p ih =>
    obtain ⟨hfirst, hp⟩ := Bool.or_eq_false_iff.mp hinert
    obtain ⟨hd, hslash⟩ : isInert d = false ∧ d ≠ '\\' := by simpa using hfirst
    cases h with
    | ended => rfl
    | far nonempty => cases hlength
    | @inert _ c _ ds _ hc =>
      have hne : d ≠ c := fun heq => by
        rw [heq, hc] at hd
        cases hd
      simp [List.isPrefixOf, hne]
    | escape => simp [List.isPrefixOf, hslash]
    | @same _ c cs ds _ behind =>
      simp only [List.isPrefixOf, Bool.and_eq_false_iff] at hcs ⊢
      exact hcs.imp_right fun hrest => ih behind (Nat.le_of_succ_le_succ hlength) hp hrest

end CssWorkbench
