import CssWorkbench.Proofs.Layout.InPlace
import CssWorkbench.Proofs.Layout.PrintedSelector
import CssWorkbench.Proofs.Layout.PrintedStatements

/-!
# Declarations, statements and comments are printed again

What is printed of a declaration, of an at-rule without a block or of a comment is read, wherever it
stands in a text, as one node that takes just these characters, says the same and is printed alike.
-/

namespace CssWorkbench

variable {text source : String} {front cs ds : List Char} {n : Nat} {t u colon : Token}
  {ts run left rest prelude : List Token} {semi : Option Token} {P Q : String → Node → Prop}
  {core : List Char} {node : Node}

/-- Wherever `core` stands in a text, it is read as one node that takes just these characters, and
the text and the node satisfy `P`. -/
def ReadInPlace (n : Nat) (core : List Char) (P : String → Node → Prop) : Prop :=
  ∀ (text : String) (front ds : List Char), text.toList = front ++ (core ++ ds) →
    ∃ tokens made, ScannedAs text front core ds tokens ∧ Conveys n tokens [made] ∧
      made.span = ⟨Text.byteLength front, Text.byteLength (front ++ core)⟩ ∧ P text made

/-- What is read with some property is read with every weaker one. -/
theorem ReadInPlace.imp (h : ReadInPlace n core P) (himp : ∀ text node, P text node → Q text node) :
    ReadInPlace n core Q := by
  intro text front ds place
  obtain ⟨tokens, made, hscan, hconveys, hspan, hmade⟩ := h text front ds place
  exact ⟨tokens, made, hscan, hconveys, hspan, himp text made hmade⟩

/-- What is read in its place as a node that says what `node` says writes that node. -/
theorem ReadInPlace.writes (h : ReadInPlace n core P) (hsolid : StartsSolid core)
    (hsame : ∀ text made, P text made → made.bare = node.bare) : Writes n core [node] := by
  intro blanks hblanks ds offset
  obtain ⟨text, front, place, rfl⟩ := exists_place offset (blanks ++ (core ++ ds))
  obtain ⟨gap, hscanGap, hgap⟩ := scannedAs_blanks hblanks place (hsolid.append ds).head?
  obtain ⟨tokens, made, hscan, hconveys, -, hmade⟩ := h text (front ++ blanks) ds hscanGap.behind
  have hread : Conveys n (gap ++ tokens) [made] := Conveys.append (conveys_blanks n hgap) hconveys
  have hwhole := (hscanGap.append hscan).scan
  rw [List.append_assoc] at hwhole
  refine ⟨gap ++ tokens, _, [], [made], hwhole, by simp, hread, ?_⟩
  rw [bareNodes, bareNodes, hsame text made hmade]
  rfl

/-- An `!important` is scanned into a mark and a word, perhaps behind blanks. -/
theorem scannedAs_important {blanks : List Char}
    (hblanks : ∀ c ∈ blanks, Text.isAsciiBlank c = true)
    (place : text.toList = front ++ (blanks ++ "!important".toList ++ ';' :: ds)) :
    ∃ gap mark word, ScannedAs text front (blanks ++ "!important".toList) (';' :: ds)
        (gap ++ [mark, word]) ∧ (∀ u ∈ gap, u.kind = .whitespace) ∧ mark.isDelim '!' = true ∧
      word.kind = .ident ∧ word.value = "important" := by
  obtain ⟨gap, important, offset', hscan, hgap, himportant⟩ :=
    tokensFrom_important hblanks ds (Text.byteLength front)
  rw [← List.append_assoc, ← List.append_assoc] at hscan
  have hplaced := scannedAs_of_tokensFrom place hscan
  obtain ⟨mark, marked, rfl, hmark, hmarked⟩ := List.map_eq_cons_iff.mp himportant
  obtain ⟨word, rfl, hword⟩ := List.map_eq_singleton_iff.mp hmarked
  refine ⟨gap, mark, word, hplaced, hgap, ?_, ?_, ?_⟩
  · rw [Token.isDelim, kind_eq_of_bare (u := ⟨.delim, .nowhere, "!"⟩) hmark,
      value_eq_of_bare (u := ⟨.delim, .nowhere, "!"⟩) hmark]
    decide
  · rw [kind_eq_of_bare (u := ⟨.ident, .nowhere, "important"⟩) hword]
  · rw [value_eq_of_bare (u := ⟨.ident, .nowhere, "important"⟩) hword]

/-- The tokens of a run say what the value and the `!important` of another run say; `printed` is the
value among them. -/
structure SaysValue (body printed run : List Token) : Prop where
  first : ∀ u ∈ body.head?, u.kind ≠ .whitespace
  inside : Inside haltsValue valueDepth 0 body 0
  tokens : valueTokens body = printed
  same : bareTokens printed = bareTokens (valueTokens run)
  important : (beforeImportant? (trimTrailingBlanks body)).isSome =
    (beforeImportant? (trimTrailingBlanks run)).isSome

/-- A value without an `!important` is said by the tokens that it is scanned into. -/
theorem saysValue_plain {printed : List Token} (hinside : Inside haltsValue valueDepth 0 run 0)
    (hplain : beforeImportant? (trimTrailingBlanks run) = none)
    (hbare : printed.map Token.bare = spaced false (valueTokens run))
    (hfirst : ∀ u ∈ printed.head?, u.kind ≠ .whitespace) : SaysValue printed printed run := by
  have hvalue : valueTokens run = trimTrailingBlanks run := by rw [valueTokens, hplain]
  have hsame : bareTokens printed = bareTokens (valueTokens run) := (bareTokens_of_spaced hbare).1
  have htrim : trimTrailingBlanks printed = printed :=
    trimTrailingBlanks_eq_self (getLast?_of_spaced hbare)
  have hnone : beforeImportant? (trimTrailingBlanks printed) = none := by
    rw [htrim]
    rcases beforeImportant?_congr (hsame.trans (congrArg bareTokens hvalue)) with
      ⟨hnone, -⟩ | ⟨_, _, -, hsome, -⟩
    · exact hnone
    · rw [hplain] at hsome
      cases hsome
  refine ⟨hfirst, (inside_value_congr hsame).mpr (inside_valueTokens hinside), ?_, hsame, ?_⟩
  · rw [valueTokens, hnone]
    exact htrim
  · rw [hnone, hplain]

/-- A value with an `!important` is said by the tokens that it is scanned into, with a mark and a
word behind them. -/
theorem saysValue_marked {printed gap : List Token} {mark word : Token} {before : List Token}
    (hinside : Inside haltsValue valueDepth 0 run 0)
    (himportant : beforeImportant? (trimTrailingBlanks run) = some before)
    (hbare : printed.map Token.bare = spaced false (valueTokens run))
    (hfirst : ∀ u ∈ (printed ++ (gap ++ [mark, word])).head?, u.kind ≠ .whitespace)
    (hgap : ∀ u ∈ gap, u.kind = .whitespace) (hmark : mark.isDelim '!' = true)
    (hkind : word.kind = .ident) (hvalue : word.value = "important") :
    SaysValue (printed ++ (gap ++ [mark, word])) printed run := by
  have hsame : bareTokens printed = bareTokens (valueTokens run) := (bareTokens_of_spaced hbare).1
  have hdelim : mark.kind = .delim := Token.kind_of_isDelim hmark
  have htrim : trimTrailingBlanks (printed ++ (gap ++ [mark, word])) =
      printed ++ (gap ++ [mark, word]) := by
    refine trimTrailingBlanks_eq_self fun u hu => ?_
    obtain rfl : word = u := by simpa using hu
    rw [hkind]
    decide
  have hsome : beforeImportant? (trimTrailingBlanks (printed ++ (gap ++ [mark, word]))) =
      some (printed ++ gap) := by
    rw [htrim, ← List.append_assoc]
    exact beforeImportant?_marked hmark hkind hvalue _
  have hclosed : Inside haltsValue valueDepth 0 printed 0 :=
    (inside_value_congr hsame).mpr (inside_valueTokens hinside)
  have hmarked : Inside haltsValue valueDepth 0 (gap ++ [mark, word]) 0 := by
    refine inside_append.mpr ⟨0, inside_of_blanks rfl (fun _ => rfl) hgap 0, ?_⟩
    simp [Inside, hdelim, hkind, haltsValue, valueDepth]
  refine ⟨hfirst, inside_append.mpr ⟨0, hclosed, hmarked⟩, ?_, hsame, ?_⟩
  · rw [valueTokens, hsome]
    simp only
    rw [trimTrailingBlanks_blanks hgap, trimTrailingBlanks_eq_self (getLast?_of_spaced hbare)]
  · rw [hsome, himportant]
    rfl

/-- The mark of an `!important` is no part of a name. -/
theorem followsRun_important (source : String) (run : List Token) (ds : List Char) :
    FollowsRun source run ([' '] ++ "!important".toList ++ ';' :: ds) :=
  ⟨⟨' ', _, rfl, by decide⟩, fun _ _ _ _ => ⟨rfl, by simp⟩⟩

/-- A semicolon may be printed behind every run. -/
theorem followsRun_semicolon (source : String) (run : List Token) (ds : List Char) :
    FollowsRun source run (';' :: ds) :=
  ⟨⟨';', ds, rfl, by decide⟩, fun _ _ _ hblank => nomatch hblank⟩

/-- In front of a semicolon no blanks are taken in. -/
theorem TakesBlanks.eq_nil_of_semicolon {blanks : List Char}
    (h : TakesBlanks source run (';' :: ds) blanks cs) : blanks = [] ∧ cs = ';' :: ds := by
  obtain ⟨happend, hblank, -⟩ := h
  cases blanks with
  | nil => exact ⟨rfl, happend.symm⟩
  | cons b blanks =>
    have hb := hblank b List.mem_cons_self
    rw [← (List.cons.inj happend).1] at hb
    cases hb

/-- In front of an `!important` at most its space is taken in. -/
theorem TakesBlanks.of_important {blanks : List Char}
    (h : TakesBlanks source run ([' '] ++ "!important".toList ++ ';' :: ds) blanks cs) :
    ∃ left, (∀ b ∈ left, Text.isAsciiBlank b = true) ∧ [' '] = blanks ++ left ∧
      cs = left ++ "!important".toList ++ ';' :: ds := by
  obtain ⟨happend, hblank, -⟩ := h
  match blanks with
  | [] => exact ⟨[' '], isAsciiBlank_of_mem_space, rfl, happend.symm⟩
  | [b] =>
    obtain ⟨rfl, rfl⟩ := List.cons.inj happend
    exact ⟨[], by simp, rfl, rfl⟩
  | b :: b' :: blanks =>
    have hb := hblank b' (by simp)
    rw [← (List.cons.inj (List.cons.inj happend).2).1] at hb
    cases hb

/-- The value of a declaration is scanned behind a space, up to a semicolon, into tokens that say it
again. Where no escape is open in it, the same is printed of them. -/
theorem ValueRun.scannedAs (h : ValueRun source run)
    (hplain : ∀ u ∈ valueTokens run, u.needsLineBreak = false)
    (place : text.toList = front ++ (' ' :: valueText source (valueTokens run)
      (beforeImportant? (trimTrailingBlanks run)).isSome ++ ';' :: ds)) :
    ∃ gap body printed, ScannedAs text front (' ' :: valueText source (valueTokens run)
        (beforeImportant? (trimTrailingBlanks run)).isSome) (';' :: ds) (gap ++ body) ∧
      (∀ u ∈ gap, u.kind = .whitespace) ∧ SaysValue body printed run ∧
      ((∀ u ∈ valueTokens run, endsInEscape (u.text source).toList = false) →
        joinTokens text printed = joinTokens source (valueTokens run)) := by
  obtain ⟨rest, cs, htail, hrest⟩ := h.tail
  obtain ⟨behind, hrun, -⟩ := valueTokens_append run
  have hfirst := head?_of_append hrun h.first
  have hlast : ∀ u ∈ (valueTokens run).getLast?, u.kind ≠ .whitespace ∧ u.kind ≠ .function :=
    fun u hu => ⟨getLast?_valueTokens run u hu,
      (inside_valueTokens h.inside).getLast_ne_function (fun _ => rfl) u hu⟩
  rw [hrun, List.append_assoc] at htail
  have hbehind := List.append_ne_nil_of_right_ne_nil behind hrest
  by_cases hne : valueTokens run = []
  · have hempty : joinTokens source (valueTokens run) = "" := by rw [hne]; rfl
    have hbare : ([] : List Token).map Token.bare = spaced false (valueTokens run) := by
      rw [hne]
      rfl
    cases himportant : beforeImportant? (trimTrailingBlanks run) with
    | none =>
      rw [himportant] at place
      simp only [valueText, hempty, Option.isSome_none, Bool.false_eq_true, if_false] at place ⊢
      obtain ⟨gap, hscan, hgap⟩ := scannedAs_blanks isAsciiBlank_of_mem_space place rfl
      exact ⟨gap, [], [], by simpa using hscan, hgap,
        saysValue_plain h.inside himportant hbare (by simp), fun _ => rfl⟩
    | some before =>
      rw [himportant] at place
      simp only [valueText, hempty, Option.isSome_some, if_true] at place ⊢
      obtain ⟨gap, mark, word, hscan, hgap, hmark, hkind, hvalue⟩ :=
        scannedAs_important isAsciiBlank_of_mem_space place
      have hmarkKind : mark.kind = .delim := Token.kind_of_isDelim hmark
      have hsays := @saysValue_marked _ [] [] mark word before h.inside himportant hbare
        (by simp [hmarkKind]) (by simp) hmark hkind hvalue
      exact ⟨gap, [mark, word], [], hscan, hgap, hsays, fun _ => rfl⟩
  · have hvalue := joinTokens_ne_empty htail hne hfirst
    cases himportant : beforeImportant? (trimTrailingBlanks run) with
    | none =>
      rw [himportant] at place
      simp only [valueText, Option.isSome_none, Bool.false_eq_true, if_false, List.append_nil]
        at place ⊢
      obtain ⟨gap, u, us, blanks, left, htakes, hscan, hgap, hu, hbare, hjoin⟩ :=
        scannedAs_spacedPrinted hplain htail hbehind hne hfirst hlast
          (followsRun_semicolon source _ ds) place
      obtain ⟨rfl, rfl⟩ := htakes.eq_nil_of_semicolon
      rw [List.append_nil] at hscan
      exact ⟨gap, u :: us, u :: us, hscan, hgap,
        saysValue_plain h.inside himportant hbare (by simpa using hu), fun _ => hjoin rfl⟩
    | some before =>
      rw [himportant] at place
      simp only [valueText, Option.isSome_some, if_true, if_neg hvalue] at place ⊢
      have hplace : text.toList = front ++ (' ' :: (joinTokens source (valueTokens run)).toList ++
          ([' '] ++ "!important".toList ++ ';' :: ds)) := by simpa using place
      obtain ⟨gap, u, us, blanks, left, htakes, hscan, hgap, hu, hbare, hjoin⟩ :=
        scannedAs_spacedPrinted hplain htail hbehind hne hfirst hlast
          (followsRun_important source _ ds) hplace
      obtain ⟨space, hspace, hboth, rfl⟩ := htakes.of_important
      obtain ⟨between, mark, word, hscanWord, hbetween, hmark, hkind, hword⟩ :=
        scannedAs_important hspace hscan.behind
      have hsays := saysValue_marked h.inside himportant hbare (by simpa using hu) hbetween hmark
        hkind hword
      refine ⟨gap, u :: us ++ (between ++ [mark, word]), u :: us, ?_, hgap, hsays,
        fun hclosed => hjoin (htakes.eq_nil hclosed).1⟩
      have hwhole := hscan.append hscanWord
      have hchars : ' ' :: (joinTokens source (valueTokens run)).toList ++ blanks ++
          (space ++ "!important".toList) = ' ' :: ((joinTokens source (valueTokens run)).toList ++
            ([' '] ++ "!important".toList)) := by
        rw [hboth]
        simp
      rw [hchars, List.append_assoc] at hwhole
      exact hwhole

/-- A name, a colon, a run that closes its brackets and a semicolon are read as a declaration. -/
theorem conveys_declaration {close : Token} {gap body : List Token} (hkind : t.kind = .ident)
    (hcolon : colon.kind = .colon) (hgap : ∀ u ∈ gap, u.kind = .whitespace)
    (hfirst : ∀ u ∈ body.head?, u.kind ≠ .whitespace)
    (hinside : Inside haltsValue valueDepth 0 body 0) (hclose : close.kind = .semicolon) :
    Conveys (n + 1) (t :: colon :: (gap ++ (body ++ [close])))
      [.declaration (declarationNode t colon body (some close))] := by
  intro stop us more e rest errors hreads
  have hcolonBlank : ¬ colon.is .whitespace = true := by simp [Token.is, hcolon]
  have hbehind : ∀ v ∈ (body ++ close :: us).head?, v.kind ≠ .whitespace := by
    intro v hv
    cases body with
    | nil =>
      obtain rfl : close = v := by simpa using hv
      rw [hclose]
      decide
    | cons w body => exact hfirst v hv
  have htake : takeValue ((gap ++ (body ++ close :: us)).dropWhile (·.is .whitespace)) =
      (body, close :: us) := by
    rw [dropBlanks_append hgap hbehind]
    exact takeRun_of_inside hinside (by rw [hclose]; rfl) us
  have hsemi : takeSemicolon (close :: us) = (some close, us) := by
    rw [takeSemicolon, if_pos hclose]
  have hread := Reads.declaration hkind (List.dropWhile_cons_of_neg hcolonBlank) hcolon htake
    (by rw [hsemi]; exact hreads)
  rw [hsemi] at hread
  simpa using hread

/-- What a token says, printed in front of something that ends every token, is scanned into the
token again. -/
def Token.SpellsItself (t : Token) : Prop :=
  ∀ (text : String) (front ds : List Char), StartsInert ds →
    text.toList = front ++ (t.value.toList ++ ds) →
      ∃ u, ScannedAs text front t.value.toList ds [u] ∧ u.bare = t.bare

/-- A name that stands in the source as it is read spells itself. -/
theorem spellsItself_of_text (hsource : Unbroken source) (htail : TailOf source (t :: ts) cs)
    (hts : ts ≠ []) (kind : t.kind = .ident) (hname : (t.text source).toList = t.value.toList) :
    t.SpellsItself := by
  intro text front ds hds place
  rw [← hname] at place ⊢
  exact scannedAs_token hsource htail hts (by rw [kind]; exact ⟨by decide, by decide⟩) hds place

/-- What is printed of a declaration, its semicolon with it, is read as a declaration that says the
same. Where no escape is open in its value, the same is printed of it. -/
theorem readInPlace_declaration (kind : t.kind = .ident) (hname : t.SpellsItself)
    (hrun : ValueRun source run) (hplain : ∀ u ∈ valueTokens run, u.needsLineBreak = false) :
    ReadInPlace (n + 1) (((declarationNode t colon run semi).text source).toList ++ [';'])
      fun text made => ∃ d, made = .declaration d ∧
        d.bare = (declarationNode t colon run semi).bare ∧
        ((∀ u ∈ valueTokens run, endsInEscape (u.text source).toList = false) →
          d.text text = (declarationNode t colon run semi).text source) := by
  intro text front ds place
  rw [text_declarationNode] at place ⊢
  generalize hvalueText : valueText source (valueTokens run)
    (beforeImportant? (trimTrailingBlanks run)).isSome = value at place ⊢
  have hplace : text.toList = front ++ (t.value.toList ++
      ([':'] ++ (' ' :: value ++ [';'] ++ ds))) := by simpa using place
  obtain ⟨u, hscanName, hu⟩ := hname text front _ ⟨':', _, rfl, by decide⟩ hplace
  obtain ⟨colon', hscanColon, hcolon⟩ := scannedAs_inert hscanName.behind (by decide) (by decide)
  have hplaceValue : text.toList = front ++ t.value.toList ++ [':'] ++
      (' ' :: value ++ ';' :: ds) := by simpa using hscanColon.behind
  rw [← hvalueText] at hplaceValue
  obtain ⟨gap, body, printed, hscanBody, hgap, hbody, hjoin⟩ := hrun.scannedAs hplain hplaceValue
  rw [hvalueText] at hscanBody
  obtain ⟨close, hscanClose, hclose⟩ :=
    scannedAs_inert (c := ';') hscanBody.behind (by decide) (by decide)
  have hscanValue : ScannedAs text _ (' ' :: value ++ [';']) ds (gap ++ body ++ [close]) :=
    hscanBody.append hscanClose
  have hscan := hscanName.append (hscanColon.append hscanValue)
  have hwhole : t.value.toList ++ ([':'] ++ (' ' :: value ++ [';'])) =
      t.value.toList ++ ':' :: ' ' :: value ++ [';'] := by simp
  rw [hwhole] at hscan
  have hkind : u.kind = .ident := (kind_eq_of_bare hu).trans kind
  have hsame : bareTokens (valueTokens body) = bareTokens (valueTokens run) := by
    rw [hbody.tokens, hbody.same]
  refine ⟨_, _, hscan, ?_, ?_, declarationNode u colon' body (some close), rfl,
    bare_declarationNode_congr hu hsame hbody.important hbody.first hrun.first, fun hclosed => ?_⟩
  · have htokens : [u] ++ ([colon'] ++ (gap ++ body ++ [close])) =
        u :: colon' :: (gap ++ (body ++ [close])) := by simp
    rw [htokens]
    exact @conveys_declaration n u colon' close gap body hkind (by rw [hcolon]; rfl) hgap
      hbody.first hbody.inside (by rw [hclose]; rfl)
  · have hspan : (Node.declaration (declarationNode u colon' body (some close))).span =
        ⟨u.span.start, close.span.stop⟩ := rfl
    rw [hspan, hscanName.span, hscanClose.span, ← hwhole]
    simp
  · have hproperty : u.value = t.value := value_eq_of_bare hu
    rw [Declaration.text, Declaration.text, declarationNode_tokens, declarationNode_tokens,
      declarationNode_important, declarationNode_important, hbody.tokens, hjoin hclosed,
      hbody.important]
    exact congrArg (· ++ ": " ++ _ ++ _) hproperty

/-- Where no escape is open, what is printed of a declaration, its semicolon with it, is read as a
declaration that says the same and of which the same is printed. -/
theorem reprintedInPlace_declaration (hsource : Unbroken source)
    (htail : TailOf source (t :: ts) cs) (hts : ts ≠ []) (kind : t.kind = .ident)
    (hname : (t.text source).toList = t.value.toList) (hrun : ValueRun source run) :
    ReadInPlace (n + 1) (((declarationNode t colon run semi).text source).toList ++ [';'])
      fun text made => ∃ d, made = .declaration d ∧
        d.text text = (declarationNode t colon run semi).text source ∧
          d.bare = (declarationNode t colon run semi).bare := by
  obtain ⟨rest, cs, hvalueTail, -⟩ := hrun.tail
  obtain ⟨behind, happend, -⟩ := valueTokens_append run
  rw [happend, List.append_assoc] at hvalueTail
  refine (readInPlace_declaration kind (spellsItself_of_text hsource htail hts kind hname) hrun
    (hsource.not_needsLineBreak hvalueTail)).imp ?_
  rintro text made ⟨d, rfl, hd, htext⟩
  exact ⟨d, rfl, htext (hsource.closed hvalueTail), hd⟩

/-- What is printed of a declaration does not start with a blank. -/
theorem startsSolid_declaration (htail : TailOf source (t :: ts) cs) (kind : t.kind = .ident)
    (hname : (t.text source).toList = t.value.toList) :
    StartsSolid (((declarationNode t colon run semi).text source).toList ++ [';']) := by
  obtain ⟨c, chars, x, rfl, hx, hread, -⟩ := htail.cons
  obtain ⟨behind, htaken, -, -⟩ := hx.split hx.append
  rw [text_declarationNode, ← hname, hread.text, htaken]
  refine ⟨c, _, rfl, ?_⟩
  rw [Bool.eq_false_iff, ne_eq, hx.isAsciiBlank_iff, ← hread.kind, kind]
  decide

/-- A declaration of a source is read again from its text and a semicolon. -/
theorem writes_declaration (hsource : Unbroken source) (htail : TailOf source (t :: ts) cs)
    (hts : ts ≠ []) (kind : t.kind = .ident) (hname : (t.text source).toList = t.value.toList)
    (hrun : ValueRun source run) :
    Writes (n + 1) (((declarationNode t colon run semi).text source).toList ++ [';'])
      [.declaration (declarationNode t colon run semi)] := by
  refine (reprintedInPlace_declaration hsource htail hts kind hname hrun).writes
    (startsSolid_declaration htail kind hname) ?_
  rintro text made ⟨d, rfl, -, hd⟩
  rw [Node.bare, Node.bare, hd]

/-- Blanks are trimmed around tokens that neither start nor end with one. -/
theorem trimBlanks_between {before after : List Token}
    (hbefore : ∀ v ∈ before, v.kind = .whitespace)
    (hafter : ∀ v ∈ after, v.kind = .whitespace) (hfirst : ∀ v ∈ ts.head?, v.kind ≠ .whitespace)
    (hlast : ∀ v ∈ ts.getLast?, v.kind ≠ .whitespace) (hne : ts ≠ []) :
    trimBlanks (before ++ ts ++ after) = ts := by
  obtain ⟨t, ts, rfl⟩ := List.exists_cons_of_ne_nil hne
  rw [trimBlanks, List.append_assoc, dropBlanks_append hbefore (by simpa using hfirst),
    trimTrailingBlanks_blanks hafter, trimTrailingBlanks_eq_self hlast]

/-- What is printed of the head of an at-rule is scanned into a keyword and a prelude that say the
same and of which the same is printed, with any blanks behind. -/
theorem scannedAs_atRule (hsource : Unbroken source) (htail : TailOf source (t :: ts) cs)
    (keyword : t.kind = .atKeyword) (htext : (t.text source).toList = '@' :: t.value.toList)
    (run : takePrelude 0 ts = (prelude, u :: left))
    (hds : StartsInert ds) (stop : Nat) (block : Option Span)
    (place : text.toList = front ++ (((atRuleOf t prelude stop block).head source).toList ++ ds)) :
    ∃ v behind, ScannedAs text front ((atRuleOf t prelude stop block).head source).toList ds
        (v :: behind) ∧ v.bare = t.bare ∧
      ∀ gap, (∀ w ∈ gap, w.kind = .whitespace) → bareTokens (behind ++ gap) = bareTokens prelude ∧
        ∀ stop' block', (atRuleOf v (behind ++ gap) stop' block').head text =
          (atRuleOf t prelude stop block).head source := by
  have hts : ts = prelude ++ u :: left := takeRun_eq_append run
  have hne : ts ≠ [] := hts ▸ List.append_ne_nil_of_right_ne_nil prelude (List.cons_ne_nil u left)
  have hkind : t.kind ≠ .whitespace ∧ t.kind ≠ .function := by
    rw [keyword]
    exact ⟨by decide, by decide⟩
  by_cases hempty : trimBlanks prelude = []
  · rw [toList_head_atRuleOf_empty htext hempty] at place ⊢
    obtain ⟨v, hscan, hv⟩ := scannedAs_token hsource htail hne hkind hds place
    refine ⟨v, [], hscan, hv, fun gap hgap => ⟨?_, fun stop' block' => ?_⟩⟩
    · rw [List.nil_append, bareTokens_of_blanks hgap, ← bareTokens_trimBlanks, hempty]
      rfl
    · have htrim : trimBlanks ([] ++ gap) = [] := by
        have hdrop : gap.dropWhile (·.is .whitespace) = [] :=
          List.dropWhile_eq_nil_iff.mpr fun w hw => by simp [Token.is, hgap w hw]
        rw [List.nil_append, trimBlanks, hdrop]
        rfl
      rw [head_atRuleOf, head_atRuleOf, htrim, hempty, value_eq_of_bare hv]
      rfl
  · obtain ⟨⟨rest, ds', hpreludeTail, hrest⟩, hfirst, hlast⟩ := trimmed_prelude htail run
    have hjoined := joinTokens_ne_empty hpreludeTail hempty hfirst
    rw [toList_head_atRuleOf htext hjoined] at place ⊢
    rw [List.append_assoc] at place
    obtain ⟨v, hscanName, hv⟩ := scannedAs_token hsource htail hne hkind
      ⟨' ', (joinTokens source (trimBlanks prelude)).toList ++ ds, rfl, by decide⟩ place
    obtain ⟨before, w, ws, hscanRun, hbefore, hw, hbare, hjoin⟩ := scannedAs_spacedRun hsource
      hpreludeTail hrest hempty hfirst hlast hds hscanName.behind
    refine ⟨v, before ++ w :: ws, hscanName.append hscanRun, hv,
      fun gap hgap => ⟨?_, fun stop' block' => ?_⟩⟩
    · rw [bareTokens_append, bareTokens_append, bareTokens_of_blanks hbefore,
        bareTokens_of_blanks hgap, (bareTokens_of_spaced hbare).1, bareTokens_trimBlanks,
        List.append_nil]
      rfl
    · have htrim : trimBlanks (before ++ w :: ws ++ gap) = w :: ws :=
        trimBlanks_between hbefore hgap (by simpa using hw) (getLast?_of_spaced hbare)
          (List.cons_ne_nil w ws)
      rw [head_atRuleOf, head_atRuleOf, htrim, hjoin, value_eq_of_bare hv]

/-- What is printed of an at-rule starts with its at sign. -/
theorem startsSolid_head (stop : Nat) (block : Option Span) (ds : List Char) :
    StartsSolid (((atRuleOf t prelude stop block).head source).toList ++ ds) := by
  rw [head_atRuleOf]
  simp only [String.toList_append, List.append_assoc]
  exact ⟨'@', _, rfl, by decide⟩

/-- What is printed of an at-rule without a block, its semicolon with it, is read as such an at-rule
that says the same and of which the same is printed. -/
theorem readInPlace_atRule (hsource : Unbroken source) (htail : TailOf source (t :: ts) cs)
    (keyword : t.kind = .atKeyword) (htext : (t.text source).toList = '@' :: t.value.toList)
    (run : takePrelude 0 ts = (prelude, u :: left)) (stop : Nat) :
    ReadInPlace n (((atRuleOf t prelude stop none).head source).toList ++ [';'])
      fun text made => ∃ rule, made = .atRule rule [] ∧ rule.block = none ∧
        rule.head text = (atRuleOf t prelude stop none).head source ∧
          made.bare = (atRuleNode t prelude stop none []).bare := by
  intro text front ds place
  rw [List.append_assoc] at place
  obtain ⟨v, behind, hscanHead, hv, hhead⟩ := scannedAs_atRule hsource htail keyword htext run
    ⟨';', ds, rfl, by decide⟩ stop none place
  obtain ⟨close, hscanClose, hclose⟩ :=
    scannedAs_inert (c := ';') hscanHead.behind (by decide) (by decide)
  obtain ⟨hsame, htext⟩ := hhead [] (by simp)
  rw [List.append_nil] at hsame htext
  have hinside := (inside_prelude_congr hsame).mpr (takeRun_inside_zero run).1
  have hkeyword : v.kind = .atKeyword := (kind_eq_of_bare hv).trans keyword
  have hscan := hscanHead.append hscanClose
  refine ⟨_, .atRule (atRuleOf v behind close.stop none) [], hscan, ?_, ?_, _, rfl, rfl,
    htext close.stop none, bare_atRuleNode_congr (value_eq_of_bare hv) hsame rfl rfl⟩
  · intro stop us more e rest errors hreads
    have htake : takePrelude 0 (behind ++ close :: us) = (behind, close :: us) :=
      takeRun_of_inside hinside (by rw [hclose]; rfl) us
    have hread := Reads.statement hkeyword (.ended htake (by rw [hclose]; rfl)) hreads
    rw [atRuleNode_eq] at hread
    simpa using hread
  · have hspan : (Node.atRule (atRuleOf v behind close.stop none) []).span =
        ⟨v.start, close.span.stop⟩ := rfl
    rw [hspan, hscanClose.span, show v.start = Text.byteLength front from hscanHead.tiles.1,
      List.append_assoc]

/-- An at-rule of a source without a block is read again from its head and a semicolon. -/
theorem writes_atRule (hsource : Unbroken source) (htail : TailOf source (t :: ts) cs)
    (keyword : t.kind = .atKeyword) (htext : (t.text source).toList = '@' :: t.value.toList)
    (run : takePrelude 0 ts = (prelude, u :: left)) (stop : Nat) :
    Writes n (((atRuleOf t prelude stop none).head source).toList ++ [';'])
      [atRuleNode t prelude stop none []] := by
  refine (readInPlace_atRule hsource htail keyword htext run stop).writes
    (startsSolid_head stop none [';']) ?_
  rintro text made ⟨-, -, -, -, hmade⟩
  exact hmade

/-- A comment that is closed is read as a comment with the same text. -/
theorem readInPlace_comment (htail : TailOf source (t :: ts) cs) (hkind : t.kind = .comment)
    (hclosed : t.text source = "/*" ++ t.value ++ "*/") :
    ReadInPlace n (t.text source).toList
      fun text made => ∃ span, made = .comment span ∧ span.text text = t.text source := by
  obtain ⟨c, chars, x, rfl, hx, hread, -⟩ := htail.cons
  obtain ⟨body, rfl, rfl, rfl⟩ := hx.eq_comment (hread.kind.symm.trans hkind)
  have htext : (t.text source).toList = '/' :: '*' :: (commentTail body).taken := hread.text
  have hbody : (commentTail body).taken = (commentTail body).value ++ ['*', '/'] := by
    have hvalue : t.value.toList = (commentTail body).value := by
      rw [hread.value, String.toList_ofList]
    have hchars := congrArg String.toList hclosed
    rw [htext, String.toList_append, String.toList_append, hvalue] at hchars
    exact (List.cons.inj (List.cons.inj hchars).2).2
  intro text front ds place
  have hnew : IsLexeme '/' ('*' :: ((commentTail body).taken ++ ds)) ⟨.comment,
      '/' :: '*' :: (commentTail body).taken, (commentTail body).value, ds⟩ := by
    have hcomment := @IsLexeme.comment ((commentTail body).taken ++ ds)
    rwa [commentTail_closed hbody] at hcomment
  obtain ⟨u, offset', hscan, hu⟩ := tokensFrom_lexeme hnew (Text.byteLength front)
  rw [htext] at place ⊢
  have hplaced : ScannedAs text front ('/' :: '*' :: (commentTail body).taken) ds [u] :=
    scannedAs_of_tokensFrom place hscan
  refine ⟨[u], .comment u.span, hplaced, ?_, hplaced.span, u.span, rfl, ?_⟩
  · intro stop us more e rest errors hreads
    exact .comment (kind_eq_of_bare (u := ⟨.comment, .nowhere, _⟩) hu) hreads
  · have htexts := hplaced.texts
    rw [List.flatMap_singleton, ← htext] at htexts
    exact String.toList_inj.mp htexts

end CssWorkbench
