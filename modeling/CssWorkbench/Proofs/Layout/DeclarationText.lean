import Mathlib
import CssWorkbench.Proofs.Layout.ReprintedStatements
import CssWorkbench.Proofs.Token.Words
import CssWorkbench.Proofs.Tree.DeclarationPlaces
import CssWorkbench.Proofs.Tree.ReadingOfParser

/-!
# A declaration is read back from its own text

The text of a declaration, put into a block of its own, is read as one declaration that says the
same. A name is printed as it was read, so that it has to be a word when it is written without
escapes; the tokens of the value are printed as they stand in the source, so that none of them may
be one that only a line break ends.
-/

namespace CssWorkbench

variable {source text : String} {front cs ds : List Char} {t u : Token} {ts us : List Token}
  {d d' : Declaration}

/-- A word spells itself. -/
theorem spellsItself_of_isWord (kind : t.kind = .ident) (hword : IsWord t.value.toList) :
    t.SpellsItself := by
  rintro text front _ ⟨b, ds, rfl, hb⟩ place
  have hvalue : String.ofList t.value.toList = t.value := String.ofList_toList
  generalize t.value.toList = word at hword hvalue place ⊢
  cases word with
  | nil => cases hword.ident
  | cons c cs =>
    refine ⟨_, scannedAs_of_tokensFrom place
      (tokensFrom_eq_cons (hword.isLexeme_inert hb ds) _), ?_⟩
    rw [Token.bare, Token.bare, kind, ← hvalue]
    rfl

/-- Tokens that say the same hold the same tokens but blanks and comments. -/
theorem map_bare_significant (h : bareTokens ts = bareTokens us) :
    (significant ts).map Token.bare = (significant us).map Token.bare := by
  have hself : ∀ ts, (significant ts).map Token.bare =
      (bareTokens ts).filter fun t => !t.isTrivia := by
    intro ts
    rw [significant, bareTokens, List.filter_map, List.filter_filter]
    refine congrArg (List.map Token.bare) (List.filter_congr fun t _ => ?_)
    cases hkind : t.kind <;> simp [Token.isTrivia, Token.is, Token.bare, hkind]
  rw [hself, hself, h]

/-- The declaration is read back from its own text in the block of a rule: there are no errors, and
one declaration with the same name, the same tokens in its value and the same `!important`. -/
def Declaration.ReadsBack (source : String) (d : Declaration) : Prop :=
  (parse ("x\x7b" ++ d.text source ++ ";\x7d")).2 = [] ∧
    ∃ rule d', (parse ("x\x7b" ++ d.text source ++ ";\x7d")).1.children =
        [.ruleset rule [.declaration d']] ∧
      d'.name = d.name ∧
      (significant d'.tokens).map Token.bare = (significant d.tokens).map Token.bare ∧
      d'.important = d.important

/-- Declarations that are the same when bare have the same bare tokens. -/
theorem bareTokens_tokens (h : d'.bare = d.bare) : bareTokens d'.tokens = bareTokens d.tokens := by
  have hvalue : d'.value.map Value.bare = d.value.map Value.bare := congrArg Declaration.value h
  rw [Declaration.tokens, Declaration.tokens]
  cases hd : d.value with
  | none =>
    rw [hd, Option.map_none, Option.map_eq_none_iff] at hvalue
    rw [hvalue]
  | some v =>
    rw [hd, Option.map_some, Option.map_eq_some_iff] at hvalue
    obtain ⟨v', hd', hbare⟩ := hvalue
    rw [hd']
    exact congrArg Value.tokens hbare

/-- What stands in a block of its own and is read in its place is all that is read. -/
theorem ReadInPlace.parse_block {core : String} {P : String → Node → Prop}
    (h : ReadInPlace 1 core.toList P) :
    ∃ rule node, parse ("x\x7b" ++ core ++ "\x7d") =
        (⟨⟨0, Text.size ("x\x7b" ++ core ++ "\x7d")⟩, [.ruleset rule [node]]⟩, []) ∧
      P ("x\x7b" ++ core ++ "\x7d") node := by
  generalize hwhole : "x\x7b" ++ core ++ "\x7d" = whole
  have place : whole.toList = [] ++ (['x'] ++ (['\x7b'] ++ (core.toList ++ ['\x7d']) ++ [])) := by
    rw [← hwhole]
    simp
  have hword : Token.SpellsItself ⟨.ident, .nowhere, "x"⟩ :=
    spellsItself_of_isWord rfl ⟨by decide, by decide⟩
  have hinert : StartsInert (['\x7b'] ++ (core.toList ++ ['\x7d']) ++ []) :=
    ⟨'\x7b', core.toList ++ ['\x7d'] ++ [], rfl, by decide⟩
  obtain ⟨u, hscanName, hu⟩ := hword whole [] _ hinert place
  have hbehind := hscanName.behind
  rw [List.append_assoc ['\x7b']] at hbehind
  obtain ⟨opener, hscanOpen, hopen⟩ := scannedAs_inert hbehind (by decide) (by decide)
  have hinner := hscanOpen.behind
  rw [List.append_assoc core.toList] at hinner
  obtain ⟨tokens, node, hscanCore, hconveys, -, hnode⟩ := h whole _ _ hinner
  obtain ⟨close, hscanClose, hclose⟩ := scannedAs_inert hscanCore.behind (by decide) (by decide)
  have hscan := hscanName.append (hscanOpen.append (hscanCore.append hscanClose))
  have htokens : (scan whole).dropLast = u :: opener :: (tokens ++ [close]) := by
    have hall := hscan.scan
    rw [tokensFrom_nil, List.append_nil, List.append_nil] at hall
    rw [scan_eq_append, List.dropLast_concat, place, List.append_nil]
    exact hall
  have hkind : u.kind = .ident := kind_eq_of_bare hu
  have hbrace : opener.kind = .lbrace := hopen
  have hbody : Reads (Text.size whole) 1 (tokens ++ [close]) [node] close.span.stop [] [] :=
    hconveys (.close hclose)
  have hhead : Heads 0 u (opener :: (tokens ++ [close])) opener (tokens ++ [close])
      (rulesetNode u.start [u] opener) := by
    refine .ruleset (by rw [hkind]; rfl) (by rw [hkind]; decide) nofun ?_ hbrace
    rw [hkind]
    exact @takeRun_of_inside _ _ 0 opener [] rfl (by rw [hbrace]; rfl) _
  have hread := Reads.block hhead (by decide) hbody .finish
  rw [← htokens] at hread
  exact ⟨_, node, parse_eq_of_reads hread, hnode⟩

/-- A declaration of a source that is read without errors is read back from its own text, if its
name is a word as it is read and no token of its value is one that only a line break ends. -/
theorem readsBack_of_mem (haccepted : (parse source).2 = [])
    (hd : d ∈ declarationsOf (parse source).1.children) (hname : IsWord d.name.toList)
    (hplain : ∀ t ∈ d.tokens, t.needsLineBreak = false) : d.ReadsBack source := by
  have hreads := reads_parse source
  rw [scan_eq_append, List.dropLast_concat] at hreads
  obtain ⟨t, colon, behind, behindColon, run, left, ⟨before, hts⟩, kind, gap, value, hleft, rfl⟩ :=
    hreads.readFrom d hd
  obtain ⟨cs, htail⟩ := (hts ▸ tailOf_source source : TailOf source (before ++ t :: behind) _).append
  have hrun := valueRun_of_takeValue htail gap value (hleft haccepted)
  rw [declarationNode_tokens] at hplain
  have hplace := @readInPlace_declaration source 0 t colon run (takeSemicolon left).1 kind
    (spellsItself_of_isWord kind hname) hrun hplain
  generalize declarationNode t colon run (takeSemicolon left).1 = d at hplace ⊢
  have hcore : (d.text source).toList ++ [';'] = (d.text source ++ ";").toList := by simp
  rw [hcore] at hplace
  obtain ⟨rule, node, hparse, d', rfl, hsame, -⟩ := hplace.parse_block
  have hwhole : "x\x7b" ++ d.text source ++ ";\x7d" =
      "x\x7b" ++ (d.text source ++ ";") ++ "\x7d" := by
    rw [← String.toList_inj]
    simp
  rw [Declaration.ReadsBack, hwhole, hparse]
  have hproperty := congrArg Declaration.property hsame
  have himportant := congrArg Declaration.important hsame
  exact ⟨rfl, rule, d', rfl, value_eq_of_bare hproperty,
    map_bare_significant (bareTokens_tokens hsame), himportant⟩

/-- An escape in the name and one that is open at the end of the value, in front of the mark. -/
theorem readsBack_of_escapes :
    (parse "a\x7bb\\43 :f( 1 )/**/c\\61!important\x7d").2 = [] ∧
      ∃ d ∈ declarationsOf (parse "a\x7bb\\43 :f( 1 )/**/c\\61!important\x7d").1.children,
        d.name = "bC" ∧ IsWord d.name.toList ∧ (∀ t ∈ d.tokens, t.needsLineBreak = false) ∧
          d.ReadsBack "a\x7bb\\43 :f( 1 )/**/c\\61!important\x7d" := by
  have haccepted : (parse "a\x7bb\\43 :f( 1 )/**/c\\61!important\x7d").2 = [] := by cbv
  have hall : (declarationsOf
      (parse "a\x7bb\\43 :f( 1 )/**/c\\61!important\x7d").1.children).map
        (fun d => (d.name, d.tokens.all fun t => !t.needsLineBreak)) = [("bC", true)] := by cbv
  obtain ⟨d, hdeclarations, hd⟩ := List.map_eq_singleton_iff.mp hall
  obtain ⟨hname, hplain⟩ := Prod.mk.inj hd
  have hmem : d ∈ declarationsOf
      (parse "a\x7bb\\43 :f( 1 )/**/c\\61!important\x7d").1.children := by
    rw [hdeclarations]
    exact List.mem_singleton_self d
  have hword : IsWord d.name.toList := by
    rw [hname]
    exact ⟨by decide, by decide⟩
  have htokens : ∀ t ∈ d.tokens, t.needsLineBreak = false := by simpa using hplain
  exact ⟨haccepted, d, hmem, hname, hword, htokens, readsBack_of_mem haccepted hmem hword htokens⟩

/-- A name with an escaped colon is printed with a colon, and then read as another one. -/
theorem readsBack_of_colon :
    (parse "a\x7bb\\:c:d\x7d").2 = [] ∧
      ¬ ∀ d ∈ declarationsOf (parse "a\x7bb\\:c:d\x7d").1.children,
        d.ReadsBack "a\x7bb\\:c:d\x7d" := by
  refine ⟨by cbv, fun hall => ?_⟩
  have hsource : (declarationsOf (parse "a\x7bb\\:c:d\x7d").1.children).map
      (fun d => (d.name, d.text "a\x7bb\\:c:d\x7d")) = [("b:c", "b:c: d")] := by cbv
  have hprinted : (declarationsOf (parse ("x\x7b" ++ "b:c: d" ++ ";\x7d")).1.children).map
      Declaration.name = ["b"] := by cbv
  obtain ⟨d, hdeclarations, hd⟩ := List.map_eq_singleton_iff.mp hsource
  obtain ⟨hname, htext⟩ := Prod.mk.inj hd
  obtain ⟨-, rule, d', hchildren, hsame, -⟩ :=
    hall d (by rw [hdeclarations]; exact List.mem_singleton_self d)
  have hself : declarationsOf [.ruleset rule [.declaration d']] = [d'] := rfl
  rw [htext] at hchildren
  rw [hchildren, hself, List.map_singleton, hsame, hname] at hprinted
  simp at hprinted

end CssWorkbench
