import CssWorkbench.Color.Search
import CssWorkbench.Proofs.Token.Tail
import CssWorkbench.Proofs.Token.Words
import Mathlib

/-!
# Chains of references

The text of a custom property may be a reference to another one, and so on; a color is found through
such a chain if it has no more links than references may be followed. The search counts a hop each
time it enters the text of a property, so that it comes to an end in a cycle as well.
-/

namespace CssWorkbench

variable {resolve : Resolver} {resolver : Option Resolver} {first text : String}
  {names : List String} {color : Color} {hops origins : Nat}

/-- A name of a custom property that is written without an escape. -/
def IsPlainCustomName (name : String) : Prop :=
  ∃ bare : List Char, name.toList = '-' :: '-' :: bare ∧ bare.all isNameChar = true

/-- The text of a reference to a custom property. -/
def referenceTo (name : String) : String := "var(" ++ name ++ ")"

/-- Hex digits write some bytes, all of them in pairs of digits or all of them with one digit, which
counts for both. -/
inductive WritesBytes : (paired : Bool) → List Nat → List Nat → Prop
  | nil (paired : Bool) : WritesBytes paired [] []
  | single (d : Nat) {digits bytes : List Nat} (rest : WritesBytes false digits bytes) :
      WritesBytes false (d :: digits) ((16 * d + d) :: bytes)
  | pair (d e : Nat) {digits bytes : List Nat} (rest : WritesBytes true digits bytes) :
      WritesBytes true (d :: e :: digits) ((16 * d + e) :: bytes)

/-- The digits of a hash write the bytes of red, green and blue, and of the opacity unless that is
full. Nothing else is a color. -/
theorem ofHex?_eq_some_iff {text : String} :
    Color.ofHex? text = some color ↔ text.toList.all isHexDigit = true ∧
      ∃ paired red green blue alpha, color = Color.ofBytes red green blue alpha ∧
        (WritesBytes paired (text.toList.map hexValue) [red, green, blue, alpha] ∨
          WritesBytes paired (text.toList.map hexValue) [red, green, blue] ∧ alpha = 255) := by
  have htwice (d : Nat) : 17 * d = 16 * d + d := by omega
  rw [Color.ofHex?, Option.ite_none_right_eq_some]
  refine and_congr_right fun _ => ?_
  generalize text.toList.map hexValue = digits
  constructor
  · intro h
    unfold Color.ofHexDigits? at h
    simp only [htwice] at h
    split at h <;> cases h
    · next r g b =>
      exact ⟨false, _, _, _, _, rfl, .inr ⟨.single r (.single g (.single b (.nil _))), rfl⟩⟩
    · next r g b a =>
      exact ⟨false, _, _, _, _, rfl, .inl (.single r (.single g (.single b (.single a (.nil _)))))⟩
    · next r r₀ g g₀ b b₀ =>
      exact ⟨true, _, _, _, _, rfl, .inr ⟨.pair r r₀ (.pair g g₀ (.pair b b₀ (.nil _))), rfl⟩⟩
    · next r r₀ g g₀ b b₀ a a₀ =>
      exact ⟨true, _, _, _, _, rfl,
        .inl (.pair r r₀ (.pair g g₀ (.pair b b₀ (.pair a a₀ (.nil _)))))⟩
  · rintro ⟨paired, red, green, blue, alpha, rfl, hwrites | ⟨hwrites, rfl⟩⟩
    · rcases hwrites with _ | ⟨r, _ | ⟨g, _ | ⟨b, _ | ⟨a, _ | _⟩⟩⟩⟩ |
        ⟨r, r₀, _ | _ | ⟨g, g₀, _ | _ | ⟨b, b₀, _ | _ | ⟨a, a₀, _ | _⟩⟩⟩⟩
      · simp only [Color.ofHexDigits?, htwice]
      · rfl
    · rcases hwrites with _ | ⟨r, _ | ⟨g, _ | ⟨b, _ | _⟩⟩⟩ |
        ⟨r, r₀, _ | _ | ⟨g, g₀, _ | _ | ⟨b, b₀, _ | _⟩⟩⟩
      · simp only [Color.ofHexDigits?, htwice]
      · rfl

/-- The texts that are a color by themselves: a hash and the name of a color. -/
inductive SpellsColor : String → Color → Prop
  | hash {digits : String} {color : Color} (spelled : Color.ofHex? digits = some color) :
      SpellsColor ("#" ++ digits) color
  | name {name : String} {color : Color} (named : Color.ofName? name = some color) :
      SpellsColor name color

/-- Each of some custom properties refers to the next one, and the last one is a color. -/
inductive IsChain (resolve : Resolver) (color : Color) : List String → Prop
  | color {name text : String} (plain : IsPlainCustomName name)
      (resolved : resolve name = some text) (spelled : SpellsColor text color) :
      IsChain resolve color [name]
  | reference {name next : String} {names : List String} (plain : IsPlainCustomName name)
      (resolved : resolve name = some (referenceTo next))
      (behind : IsChain resolve color (next :: names)) :
      IsChain resolve color (name :: next :: names)

/-- Every text that is known is a reference. -/
def OnlyReferences (resolve : Resolver) : Prop :=
  ∀ name text, resolve name = some text →
    ∃ next, IsPlainCustomName next ∧ text = referenceTo next

/-! ## The tokens of a reference -/

/-- A reference has five bytes besides the name. -/
theorem size_referenceTo (name : String) :
    Text.size (referenceTo name) = 4 + Text.size name + 1 := by
  have hopen : Text.byteLength ['v', 'a', 'r', '('] = 4 := by decide
  have hclose : Text.byteLength [')'] = 1 := by decide
  have htext : (referenceTo name).toList = ['v', 'a', 'r', '('] ++ name.toList ++ [')'] := by
    simp [referenceTo]
  rw [Text.size, htext, Text.byteLength_append, Text.byteLength_append, hopen, hclose, Text.size]

/-- A reference is a function, a name and a parenthesis. -/
theorem scan_referenceTo {name : String} (h : IsPlainCustomName name) :
    scan (referenceTo name) = [⟨.function, ⟨0, 4⟩, "var"⟩,
      ⟨.ident, ⟨4, 4 + Text.size name⟩, name⟩,
      ⟨.rparen, ⟨4 + Text.size name, Text.size (referenceTo name)⟩, ")"⟩,
      Token.eof (Text.size (referenceTo name))] := by
  obtain ⟨bare, hname, hbare⟩ := h
  have hvar := @IsWord.isLexeme_function 'v' ['a', 'r'] ('-' :: ('-' :: bare ++ [')']))
    ⟨by decide, by decide⟩ (by simp [spellsUrl])
  have hword := isWord_custom hbare
  have hident := @IsWord.isLexeme_ident '-' ('-' :: bare) [')'] hword
    (by simp [startsNamePart, isNameChar, isNameStart, startsEscape]) (by simp)
    (hword.not_close fun _ => by simp)
  have hclose := @isLexeme_inert ')' [] (by decide) (by decide)
  have htext : (referenceTo name).toList =
      'v' :: (['a', 'r'] ++ '(' :: ('-' :: ('-' :: bare ++ [')']))) := by
    simp [referenceTo, hname]
  have hfour : Text.byteLength (['v', 'a', 'r'] ++ ['(']) = 4 := by decide
  have hone : Text.byteLength [')'] = 1 := by decide
  have hvalue : String.ofList ('-' :: '-' :: bare) = name := by rw [← hname, String.ofList_toList]
  have hsize : Text.byteLength ('-' :: '-' :: bare) = Text.size name := by rw [Text.size, hname]
  rw [scan_eq_append, htext, tokensFrom_eq_cons hvar,
    tokensFrom_eq_cons hident, tokensFrom_eq_cons hclose, Lexeme.token, Lexeme.token, Lexeme.token,
    size_referenceTo]
  simp only [Lexeme.verbatim, hfour, hone, hvalue, hsize, tokensFrom_nil, Nat.zero_add]
  rfl

/-! ## The tokens of a color -/

/-- The names of colors are written in small letters. -/
theorem namedColors_isLower : ∀ entry ∈ Knowledge.namedColors,
    entry.1.toList ≠ [] ∧ entry.1.toList.all Char.isLower = true := by
  decide +kernel

/-- The name of a color is written in letters. -/
theorem letters_of_ofName? {name : String} (h : Color.ofName? name = some color) :
    name.toList ≠ [] ∧ ∀ c ∈ name.toList, c.isAlpha = true := by
  have hknown : (Knowledge.namedColors.lookup (Text.lower name)).isSome = true := by
    unfold Color.ofName? Knowledge.namedColor? at h
    split at h
    · cases h
    · obtain ⟨packed, hpacked, -⟩ := Option.map_eq_some_iff.mp h
      rw [hpacked]
      rfl
  obtain ⟨entry, hmem, hkey⟩ := List.lookup_isSome_iff.mp hknown
  obtain ⟨hne, hlower⟩ := namedColors_isLower entry hmem
  rw [← eq_of_beq hkey, Text.lower, String.toList_ofList] at hne hlower
  refine ⟨fun hnil => hne (by rw [hnil]; rfl), ?_⟩
  intro c hc
  rw [← Char.isLower_toLower_eq_isAlpha]
  exact List.all_eq_true.mp hlower _ (List.mem_map_of_mem hc)

/-- The name of a color is an identifier. -/
theorem scan_of_ofName? {name : String} (h : Color.ofName? name = some color) :
    scan name = [⟨.ident, ⟨0, Text.size name⟩, name⟩, Token.eof (Text.size name)] := by
  obtain ⟨hne, hletters⟩ := letters_of_ofName? h
  have hstart : ∀ c ∈ name.toList, isNameStart c = true := fun c hc => by
    rw [isNameStart, hletters c hc, Bool.true_or, Bool.true_or]
  obtain ⟨c, cs, hname⟩ := List.exists_cons_of_ne_nil hne
  have hc : isNameStart c = true := hstart c (hname ▸ List.mem_cons_self)
  have hword : IsWord (c :: cs) := by
    refine ⟨?_, List.all_eq_true.mpr ?_⟩
    · rw [startsIdent_of_ne (ne_of_isNameStart hc rfl), hc, Bool.true_or]
    · intro d hd
      exact isNameChar_of_isNameStart (hstart d (hname ▸ hd))
  have hx := @IsWord.isLexeme_ident c cs [] hword rfl (by simp) (hword.not_close fun _ => by simp)
  have hvalue : String.ofList (c :: cs) = name := by rw [← hname, String.ofList_toList]
  have hsize : Text.byteLength (c :: cs) = Text.size name := by rw [Text.size, hname]
  rw [List.append_nil] at hx
  rw [scan_eq_append, hname, tokensFrom_eq_cons hx, Lexeme.token]
  simp only [hvalue, hsize, tokensFrom_nil, Nat.zero_add]
  rfl

/-- A hash that is a color is one token. -/
theorem scan_of_ofHex? {digits : String} (h : Color.ofHex? digits = some color) :
    scan ("#" ++ digits) = [⟨.hash, ⟨0, Text.size ("#" ++ digits)⟩, digits⟩,
      Token.eof (Text.size ("#" ++ digits))] := by
  unfold Color.ofHex? at h
  split at h
  · rename_i hdigits
    have hplain : digits.toList.all isNameChar = true :=
      List.all_eq_true.mpr fun c hc => isNameChar_of_isHexDigit (List.all_eq_true.mp hdigits c hc)
    have hname := @name_append_of_all [] _ hplain rfl
    have hpart : startsNamePart digits.toList = true := by
      cases hlist : digits.toList with
      | nil =>
        rw [hlist] at h
        cases h
      | cons c cs =>
        have hc : isNameChar c = true :=
          List.all_eq_true.mp hplain c (hlist ▸ List.mem_cons_self)
        rw [startsNamePart, hc, Bool.true_or]
    have hstart : PlainStart '#' digits.toList :=
      ⟨by decide, by simp [List.isPrefixOf], by decide, by simp [startsNumber, startsUnsigned]⟩
    have hx := IsLexeme.hash hstart hpart
    have htext : ("#" ++ digits).toList = '#' :: digits.toList := by simp
    have hvalue : String.ofList digits.toList = digits := String.ofList_toList
    rw [List.append_nil] at hname
    rw [hname] at hx
    rw [scan_eq_append, htext, tokensFrom_eq_cons hx, Lexeme.token, Text.size, htext]
    simp only [Lexeme.ofStretch, hvalue, tokensFrom_nil, Nat.zero_add]
    rfl
  · cases h

/-! ## One hop -/

variable {follow : Nat → List Token → Option Color} {name : String}

/-- No color is named like a custom property. -/
theorem ofName?_custom (h : IsPlainCustomName name) : Color.ofName? name = none := by
  obtain ⟨bare, hname, -⟩ := h
  cases hcolor : Color.ofName? name with
  | none => rfl
  | some color =>
    have hdash := (letters_of_ofName? hcolor).2 '-' (by rw [hname]; exact List.mem_cons_self)
    cases hdash

/-- At the front of a reference the search follows it. -/
theorem readColor_referenceTo (h : IsPlainCustomName name) :
    readColor follow origins (scan (referenceTo name)) =
      (follow origins [⟨.ident, ⟨4, 4 + Text.size name⟩, name⟩]).map fun color =>
        ⟨color, ⟨0, Text.size (referenceTo name)⟩, 2⟩ := by
  rw [scan_referenceTo h]
  simp [readColor, Token.isFunction, Text.sameIgnoringCase, argumentsOf, closeDistance,
    closeDistanceFrom, TokenKind.opens, TokenKind.closes, Token.is, blockStop, Token.start,
    Token.stop]

/-- However many references may be followed, the search reads the front of a run. -/
theorem exists_follow (resolver : Option Resolver) (hops : Nat) :
    ∃ follow, colorAt resolver hops = readColor follow := by
  cases hops with
  | zero => exact ⟨_, rfl⟩
  | succ hops => exact ⟨_, rfl⟩

/-- The only color in a reference is at its front. -/
theorem firstMatch_referenceTo (h : IsPlainCustomName name) :
    firstMatch (colorAt resolver hops origins) (scan (referenceTo name)) =
      colorAt resolver hops origins (scan (referenceTo name)) := by
  obtain ⟨follow, hfollow⟩ := exists_follow resolver hops
  have hrest : firstMatch (readColor follow origins) (scan (referenceTo name)).tail = none := by
    rw [scan_referenceTo h]
    simp [firstMatch, readColor, ofName?_custom h, Token.eof]
  rw [hfollow]
  rw [scan_referenceTo h] at hrest ⊢
  rw [firstMatch]
  cases hfound : readColor follow origins _ with
  | some found => rfl
  | none => exact hrest

/-- A text that is a color has it at its front, however many references may be followed. -/
theorem firstMatch_of_spellsColor (h : SpellsColor text color) :
    (firstMatch (colorAt resolver hops origins) (scan text)).map ColorMatch.color = some color := by
  obtain ⟨follow, hfollow⟩ := exists_follow resolver hops
  rw [hfollow]
  cases h with
  | hash spelled =>
    rw [scan_of_ofHex? spelled]
    simp [firstMatch, readColor, spelled]
  | name named =>
    rw [scan_of_ofName? named]
    simp [firstMatch, readColor, named]

/-- A reference is not followed when no hop is left. -/
theorem colorAt_referenceTo_zero (h : IsPlainCustomName name) :
    colorAt resolver 0 origins (scan (referenceTo name)) = none := by
  rw [colorAt, readColor_referenceTo h]
  rfl

/-- One hop leads from a reference to the text of the property. -/
theorem colorAt_referenceTo_succ (h : IsPlainCustomName name) :
    colorAt (some resolve) (hops + 1) origins (scan (referenceTo name)) =
      ((resolve name).bind fun text =>
        (firstMatch (colorAt (some resolve) hops origins) (scan text)).map ColorMatch.color).map
          fun color => ⟨color, ⟨0, Text.size (referenceTo name)⟩, 2⟩ := by
  have hcustom : referencedName? [⟨.ident, ⟨4, 4 + Text.size name⟩, name⟩] = some name := by
    obtain ⟨bare, hname, -⟩ := h
    simp [referencedName?, Token.isTrivia, Token.is, Token.isCustomName, hname]
  rw [colorAt, readColor_referenceTo h, hcustom]
  cases hresolve : resolve name with
  | none => simp only [hresolve, Option.bind_none]
  | some text => simp only [hresolve, Option.bind_some]

/-! ## Many hops -/

/-- The properties of a chain have plain names. -/
theorem IsChain.plain (h : IsChain resolve color (first :: names)) : IsPlainCustomName first := by
  cases h with
  | color plain => exact plain
  | reference plain => exact plain

/-- A chain leads to its color if as many hops are left as it has links. -/
theorem IsChain.colorAt_eq (h : IsChain resolve color (first :: names)) (hops origins : Nat) :
    colorAt (some resolve) hops origins (scan (referenceTo first)) =
      if names.length < hops then some ⟨color, ⟨0, Text.size (referenceTo first)⟩, 2⟩
      else none := by
  induction names generalizing first hops with
  | nil =>
    cases h with
    | color plain resolved spelled =>
      cases hops with
      | zero => exact colorAt_referenceTo_zero plain
      | succ hops =>
        rw [colorAt_referenceTo_succ plain, resolved, Option.bind_some,
          firstMatch_of_spellsColor spelled]
        rfl
  | cons next names ih =>
    cases h with
    | reference plain resolved behind =>
      cases hops with
      | zero => exact colorAt_referenceTo_zero plain
      | succ hops =>
        rw [colorAt_referenceTo_succ plain, resolved, Option.bind_some,
          firstMatch_referenceTo behind.plain, ih behind hops, List.length_cons]
        by_cases hlong : names.length < hops
        · rw [if_pos hlong, if_pos (Nat.succ_lt_succ hlong)]
          rfl
        · rw [if_neg hlong, if_neg fun hlt => hlong (Nat.lt_of_succ_lt_succ hlt)]
          rfl

/-- Where every text is a reference the search comes to an end without a color. -/
theorem OnlyReferences.colorAt_eq_none (h : OnlyReferences resolve) {name : String}
    (plain : IsPlainCustomName name) (hops origins : Nat) :
    colorAt (some resolve) hops origins (scan (referenceTo name)) = none := by
  induction hops generalizing name with
  | zero => exact colorAt_referenceTo_zero plain
  | succ hops ih =>
    rw [colorAt_referenceTo_succ plain]
    cases hresolve : resolve name with
    | none => rfl
    | some text =>
      obtain ⟨next, hnext, rfl⟩ := h name text hresolve
      rw [Option.bind_some, firstMatch_referenceTo hnext, ih hnext]
      rfl

/-- A color is found through a chain of custom properties from a reference to the first one, where
`depth` references were followed before, just if the hops before and the links of the chain are at
most five; and where every text is a reference, as in a cycle, no color is found. -/
theorem colorAt_referenceTo (resolve : Resolver) (depth : Nat) (first : String) :
    (∀ names color, IsChain resolve color (first :: names) →
      colorAt (some resolve) (maxHops - depth) maxOrigins (scan (referenceTo first)) =
        if depth + (first :: names).length ≤ 5 then
          some ⟨color, ⟨0, Text.size (referenceTo first)⟩, 2⟩
        else none) ∧
      (OnlyReferences resolve → IsPlainCustomName first →
        colorAt (some resolve) (maxHops - depth) maxOrigins (scan (referenceTo first)) = none) := by
  refine ⟨?_, fun h plain => h.colorAt_eq_none plain _ _⟩
  intro names color hchain
  have hlinks : names.length < maxHops - depth ↔ depth + (first :: names).length ≤ 5 := by
    rw [maxHops, List.length_cons]
    omega
  rw [hchain.colorAt_eq]
  simp only [hlinks]

/-- Three properties lead to red behind two hops, but not behind three; and a property that refers
to itself leads nowhere. -/
theorem colorAt_referenceTo_of_three :
    let resolve : Resolver := fun name =>
      [("--a", "var(--b)"), ("--b", "var(--c)"), ("--c", "red")].lookup name
    let circle : Resolver := fun name => [("--a", "var(--a)")].lookup name
    IsChain resolve (Color.ofPacked 0xff0000ff) ["--a", "--b", "--c"] ∧
      colorAt (some resolve) (maxHops - 2) maxOrigins (scan "var(--a)") =
        some ⟨Color.ofPacked 0xff0000ff, ⟨0, 8⟩, 2⟩ ∧
      colorAt (some resolve) (maxHops - 3) maxOrigins (scan "var(--a)") = none ∧
      OnlyReferences circle ∧
      colorAt (some circle) (maxHops - 0) maxOrigins (scan "var(--a)") = none := by
  intro resolve circle
  have plain (c : Char) (hc : isNameChar c = true) :
      IsPlainCustomName (String.ofList ['-', '-', c]) :=
    ⟨[c], String.toList_ofList, by simp [hc]⟩
  have hred : SpellsColor "red" (Color.ofPacked 0xff0000ff) := .name rfl
  have hchain : IsChain resolve (Color.ofPacked 0xff0000ff) ["--a", "--b", "--c"] :=
    .reference (plain 'a' rfl) rfl
      (.reference (plain 'b' rfl) rfl (.color (plain 'c' rfl) rfl hred))
  have hcircle : OnlyReferences circle := by
    intro name text h
    refine ⟨"--a", plain 'a' rfl, ?_⟩
    simp only [circle, List.lookup] at h
    split at h
    · exact (Option.some.inj h).symm
    · cases h
  exact ⟨hchain, (colorAt_referenceTo resolve 2 "--a").1 _ _ hchain,
    (colorAt_referenceTo resolve 3 "--a").1 _ _ hchain, hcircle,
    (colorAt_referenceTo circle 0 "--a").2 hcircle (plain 'a' rfl)⟩

end CssWorkbench
