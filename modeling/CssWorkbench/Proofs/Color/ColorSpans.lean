import Mathlib.Logic.Relation
import CssWorkbench.Color.Palette
import CssWorkbench.Proofs.Color.References
import CssWorkbench.Proofs.Tree.DeclarationPlaces
import CssWorkbench.Proofs.Tree.Nesting

/-!
# Where the colors are

A color that is found starts at a token of its run and ends at the same token or at one behind it,
even if the parenthesis that would close its function is missing. The search goes on behind that
token, so that it comes to an end and the colors stand in order and apart.
-/

namespace CssWorkbench

variable {resolver : Option Resolver} {follow : Nat → List Token → Option Color}
  {origins start stop n e : Nat} {t : Token} {ts left rest : List Token} {m : ColorMatch}

/-! ## One color -/

/-- A block closes at one of the tokens that were passed or are still ahead. -/
theorem closeDistanceFrom_lt (depth passed : Nat) (hpos : 0 < passed + ts.length) :
    closeDistanceFrom depth passed ts < passed + ts.length := by
  induction ts generalizing depth passed with
  | nil =>
    rw [closeDistanceFrom]
    exact Nat.sub_lt hpos Nat.one_pos
  | cons t ts ih =>
    have hstep : ∀ depth, closeDistanceFrom depth (passed + 1) ts < passed + (t :: ts).length := by
      intro depth
      have hlt := ih depth (passed + 1) (by omega)
      rw [List.length_cons]
      omega
    rw [closeDistanceFrom]
    split
    · exact hstep _
    · split
      · split
        · rw [List.length_cons]
          omega
        · exact hstep _
      · split
        · rw [List.length_cons]
          omega
        · exact hstep _

/-- A bracket is closed among the tokens. -/
theorem closeDistance_lt (t : Token) (ts : List Token) :
    closeDistance (t :: ts) < (t :: ts).length := by
  have hpos : 0 < 0 + (t :: ts).length := by simp
  have hlt := closeDistanceFrom_lt 0 0 hpos
  rwa [Nat.zero_add] at hlt

/-- The kinds of a token that a color may start with. -/
def TokenKind.StartsColor (kind : TokenKind) : Prop :=
  kind = .hash ∨ kind = .ident ∨ kind = .function

/-- A color stands at the front of a run: its span runs from the first token, of a kind that a color
may start with, to the last token that it takes up. -/
def ColorMatch.AtFront (m : ColorMatch) (ts : List Token) : Prop :=
  ∃ first last, ts[0]? = some first ∧ ts[m.behind]? = some last ∧ first.kind.StartsColor ∧
    m.span = ⟨first.start, last.stop⟩

/-- A color that is one token stands at the front of its run. -/
theorem atFront_token {color : Option Color} (kind : t.kind.StartsColor)
    (h : (color.map fun c => ⟨c, t.span, 0⟩) = some m) : m.AtFront (t :: ts) := by
  obtain ⟨_, -, rfl⟩ := Option.map_eq_some_iff.mp h
  exact ⟨t, t, rfl, rfl, kind, rfl⟩

/-- A color that is a function reaches to a token of the run, closed or not. -/
theorem atFront_function {color : Option Color} (kind : t.kind = .function)
    (h : (color.map fun c => ⟨c, ⟨t.start, blockStop t ts⟩, closeDistance (t :: ts)⟩) = some m) :
    m.AtFront (t :: ts) := by
  obtain ⟨_, -, rfl⟩ := Option.map_eq_some_iff.mp h
  have hlast := List.getElem?_eq_getElem (closeDistance_lt t ts)
  refine ⟨t, _, rfl, hlast, .inr (.inr kind), ?_⟩
  rw [blockStop, hlast, Option.getD_some]

/-- A color that is read stands at the front of the run. -/
theorem atFront_readColor (h : readColor follow origins ts = some m) : m.AtFront ts := by
  cases ts with
  | nil =>
    rw [readColor] at h
    cases h
  | cons t ts =>
    unfold readColor at h
    split at h
    · rename_i kind
      exact atFront_token (.inl kind) h
    · rename_i kind
      exact atFront_token (.inr (.inl kind)) h
    · -- A reference, a function with an origin, or one with plain channels.
      rename_i kind
      dsimp only at h
      split at h
      · exact atFront_function kind h
      · split at h
        · split at h
          · split at h
            · cases h
            · split at h
              · exact atFront_function kind h
              · cases h
          · exact atFront_function kind h
        · cases h
    · cases h

/-- A color that is found stands at the front of the tokens. -/
theorem atFront_color? (h : color? resolver ts = some m) : m.AtFront ts := by
  obtain ⟨follow, hfollow⟩ := exists_follow resolver maxHops
  rw [color?, hfollow] at h
  exact atFront_readColor h

/-- Where the tokens tile a stretch, a color at their front has a part of it, and the tokens behind
the color tile the rest. -/
theorem ColorMatch.AtFront.tiles (h : m.AtFront ts) (htiles : Tiles start stop ts) :
    m.span.start = start ∧ m.span.start < m.span.stop ∧
      Tiles m.span.stop stop (ts.drop (m.behind + 1)) := by
  obtain ⟨first, last, hfirst, hlast, -, hspan⟩ := h
  obtain ⟨hlt, hget⟩ := List.getElem?_eq_some_iff.mp hlast
  have hparts := List.take_append_drop (m.behind + 1) ts
  rw [← hparts] at htiles
  obtain ⟨middle, hfront, hbehind⟩ := tiles_append.mp htiles
  have hend : last.stop = middle := by
    refine hfront.getLast ?_
    rw [List.take_succ_eq_append_getElem hlt, List.getLast?_concat, hget]
  have hne : ts ≠ [] := List.ne_nil_of_length_pos (Nat.zero_lt_of_lt hlt)
  obtain ⟨t, ts, rfl⟩ := List.exists_cons_of_ne_nil hne
  obtain rfl := Option.some.inj hfirst
  rw [List.take_succ_cons] at hfront
  obtain ⟨hstart, hpos, hrest⟩ := hfront
  have hle := hrest.le
  rw [hspan]
  refine ⟨hstart, ?_, hend ▸ hbehind⟩
  exact hend ▸ Nat.lt_of_lt_of_le hpos hle

/-! ## The search -/

/-- The colors of tokens that tile a stretch stand in order in it. -/
theorem inOrder_allColors (resolver : Option Resolver) (htiles : Tiles start stop ts) :
    InOrder start stop ((allColors resolver ts).map ColorMatch.span) := by
  fun_induction allColors resolver ts generalizing start with
  | case1 => exact Nat.le_of_eq htiles
  | case2 t ts found hfound ih =>
    obtain ⟨hstart, hpos, hbehind⟩ := (atFront_color? hfound).tiles htiles
    exact ⟨Nat.le_of_eq hstart.symm, hpos, ih hbehind⟩
  | case3 t ts hnone ih =>
    obtain ⟨rfl, hpos, hrest⟩ := htiles
    exact (ih hrest).of_le (Nat.le_of_lt hpos)

/-- Every color of a run stands at the front of what follows some of its tokens. -/
theorem exists_atFront_of_mem (h : m ∈ allColors resolver ts) :
    ∃ index, m.AtFront (ts.drop index) := by
  fun_induction allColors resolver ts with
  | case1 => cases h
  | case2 t ts found hfound ih =>
    rcases List.mem_cons.mp h with rfl | h
    · exact ⟨0, atFront_color? hfound⟩
    · obtain ⟨index, hindex⟩ := ih h
      rw [List.drop_drop] at hindex
      exact ⟨found.behind + index + 1, hindex⟩
  | case3 t ts hnone ih =>
    obtain ⟨index, hindex⟩ := ih h
    exact ⟨index + 1, hindex⟩

/-- What the search has in hand: the place of the next token, and the colors so far. -/
structure ColorSearch where
  index : Nat
  found : List ColorMatch

/-- One turn of the search over a run. It goes on behind the last token of a color, and one token
further where there is none. -/
inductive ColorTurn (resolver : Option Resolver) (tokens : List Token) :
    ColorSearch → ColorSearch → Prop
  | taken {i : Nat} {found : List ColorMatch} {m : ColorMatch} (ahead : i < tokens.length)
      (color : color? resolver (tokens.drop i) = some m) :
      ColorTurn resolver tokens ⟨i, found⟩ ⟨i + m.behind + 1, found ++ [m]⟩
  | passed {i : Nat} {found : List ColorMatch} (ahead : i < tokens.length)
      (noColor : color? resolver (tokens.drop i) = none) :
      ColorTurn resolver tokens ⟨i, found⟩ ⟨i + 1, found⟩

variable {tokens : List Token} {s s' : ColorSearch}

/-- A turn gets further, and not past the end. -/
theorem ColorTurn.advances (h : ColorTurn resolver tokens s s') :
    s.index < s'.index ∧ s'.index ≤ tokens.length := by
  cases h with
  | @taken i found m ahead color =>
    obtain ⟨-, last, -, hlast, -⟩ := atFront_color? color
    have hlt := (List.getElem?_eq_some_iff.mp hlast).1
    rw [List.length_drop] at hlt
    exact ⟨by simp only; omega, by simp only; omega⟩
  | passed ahead => exact ⟨Nat.lt_succ_self _, ahead⟩

/-- There is a turn as long as a token is ahead. -/
theorem exists_colorTurn (resolver : Option Resolver) (h : s.index < tokens.length) :
    ∃ s', ColorTurn resolver tokens s s' := by
  cases hcolor : color? resolver (tokens.drop s.index) with
  | some m => exact ⟨_, .taken h hcolor⟩
  | none => exact ⟨_, .passed h hcolor⟩

/-- What is found so far and the colors ahead stay the same from turn to turn. -/
theorem ColorTurn.found_append (h : ColorTurn resolver tokens s s') :
    s'.found ++ allColors resolver (tokens.drop s'.index) =
      s.found ++ allColors resolver (tokens.drop s.index) := by
  cases h with
  | @taken i found m ahead color =>
    have hdrop := List.drop_eq_getElem_cons ahead
    rw [hdrop] at color
    have hrest : (tokens.drop (i + 1)).drop m.behind = tokens.drop (i + m.behind + 1) := by
      rw [List.drop_drop, Nat.add_right_comm]
    rw [hdrop, allColors, color]
    simp only [hrest, List.append_assoc, List.singleton_append]
  | @passed i found ahead noColor =>
    have hdrop := List.drop_eq_getElem_cons ahead
    rw [hdrop] at noColor
    rw [hdrop, allColors, noColor]

/-- The search gets from any place in the run to its end. -/
theorem exists_colorRun (resolver : Option Resolver) (hle : s.index ≤ tokens.length) :
    ∃ found, Relation.ReflTransGen (ColorTurn resolver tokens) s ⟨tokens.length, found⟩ := by
  generalize hahead : tokens.length - s.index = ahead
  induction ahead using Nat.strongRecOn generalizing s with
  | ind ahead ih =>
    rcases Nat.lt_or_eq_of_le hle with hlt | hend
    · obtain ⟨s', hturn⟩ := exists_colorTurn resolver hlt
      obtain ⟨hless, hle'⟩ := hturn.advances
      obtain ⟨found, hrun⟩ := ih (tokens.length - s'.index) (by omega) hle' rfl
      exact ⟨found, .head hturn hrun⟩
    · exact ⟨s.found, hend ▸ .refl⟩

/-- Wherever the search may be, it is in the run, and nothing was missed. -/
theorem found_append_of_run (h : Relation.ReflTransGen (ColorTurn resolver tokens) ⟨0, []⟩ s) :
    s.index ≤ tokens.length ∧
      s.found ++ allColors resolver (tokens.drop s.index) = allColors resolver tokens := by
  induction h with
  | refl => exact ⟨Nat.zero_le _, rfl⟩
  | tail _ hturn ih => exact ⟨hturn.advances.2, hturn.found_append.trans ih.2⟩

/-- At the end of the run the search holds all colors. -/
theorem eq_of_colorRun (h : Relation.ReflTransGen (ColorTurn resolver tokens) ⟨0, []⟩ s)
    (hend : s.index = tokens.length) : s = ⟨tokens.length, allColors resolver tokens⟩ := by
  obtain ⟨-, hfound⟩ := found_append_of_run h
  rw [hend, List.drop_length, allColors, List.append_nil] at hfound
  cases s
  cases hend
  cases hfound
  rfl

/-! ## The values of a source -/

variable {nodes : List Node} {errors : List SyntaxError} {places : List Token → List Span}

/-- The tokens of the value of a declaration stand between its name and what is left behind it. -/
theorem exists_valueTokens {colon : Token} {behindColon run : List Token}
    (gap : ts.dropWhile (·.is .whitespace) = colon :: behindColon)
    (value : takeValue (behindColon.dropWhile (·.is .whitespace)) = (run, left)) :
    ∃ front behind, t :: ts = front ++ valueTokens run ++ (behind ++ (takeSemicolon left).2) := by
  obtain ⟨blanks, hts, -⟩ := exists_blanks_append gap
  obtain ⟨blanks', hbehind, -⟩ := exists_blanks_append (takeRun_eq_append value)
  obtain ⟨behind, hrun, -⟩ := valueTokens_append run
  have hleft := takeSemicolon_append left
  refine ⟨t :: blanks ++ colon :: blanks', behind ++ (takeSemicolon left).1.toList, ?_⟩
  rw [hts, hbehind]
  nth_rewrite 1 [hrun]
  nth_rewrite 1 [← hleft]
  simp only [List.append_assoc, List.cons_append]

/-- The brace behind a head ends behind the start of the head. -/
theorem Heads.start_lt {make : List Node → Span → Node} {opener : Token} {inner : List Token}
    (h : Heads n t ts opener inner make) (htiles : Tiles start stop (t :: ts)) :
    Tiles opener.stop stop inner ∧ start < opener.stop := by
  obtain ⟨hinner, hmake⟩ := h.wellPlaced htiles
  obtain ⟨-, -, -, hpos⟩ := hmake (Nat.le_refl _) (wellNested_nil (Nat.le_refl opener.stop))
  exact ⟨hinner, hpos⟩

/-- What stands in order in tokens that tile a stretch stands in order in all values of what is
read. -/
theorem Reads.inOrder_values (h : Reads stop n ts nodes e rest errors)
    (htiles : Tiles start stop ts)
    (hplaces : ∀ {start stop : Nat} {ts : List Token}, Tiles start stop ts →
      InOrder start stop (places ts)) :
    InOrder start e ((declarationsOf nodes).flatMap fun d => places d.tokens) := by
  induction h generalizing start with
  | finish | unclosed => exact Nat.le_of_eq htiles
  | close => exact htiles.1 ▸ Nat.le_of_lt htiles.2.1
  | stray _ _ ih | pass _ _ ih | comment _ _ ih =>
    obtain ⟨rfl, hpos, hts⟩ := htiles
    exact (ih hts).of_le (Nat.le_of_lt hpos)
  | @declaration _ t colon ts _ run left _ _ _ _ _ gap _ value _ ih =>
    obtain ⟨front, behind, hwhole⟩ := exists_valueTokens (t := t) gap value
    rw [hwhole] at htiles
    obtain ⟨_, hbefore, hleft⟩ := tiles_append.mp htiles
    obtain ⟨_, hfront, hvalue⟩ := tiles_append.mp hbefore
    obtain ⟨_, hbehind, hrest⟩ := tiles_append.mp hleft
    have hfirst := (hplaces hvalue).of_le hfront.le
    rw [declarationsOf_declaration, List.flatMap_cons, declarationNode_tokens]
    exact inOrder_append.mpr ⟨_, hfirst, (ih hrest).of_le hbehind.le⟩
  | statement _ rule _ ih =>
    obtain ⟨hnone, hchildren⟩ := rule.no_declaration
    obtain ⟨-, -, -, hpos, middle, hle, hrest⟩ := rule.wellPlaced htiles
    rw [declarationsOf_cons hnone, hchildren]
    exact (ih hrest).of_le (by omega)
  | @block _ _ opener _ _ _ _ _ children _ inside _ _ _ head _ body _ ihBody ih =>
    obtain ⟨hnone, hchildren⟩ := head.no_declaration children ⟨opener.start, inside⟩
    obtain ⟨hinner, hopener⟩ := head.start_lt htiles
    have hleft := (body.wellNested hinner).2
    rw [declarationsOf_cons hnone, hchildren, List.flatMap_append]
    exact inOrder_append.mpr ⟨inside, (ihBody hinner).of_le (Nat.le_of_lt hopener), ih hleft⟩
  | @deepBlock _ _ opener _ inner _ _ _ _ _ head _ _ ih =>
    obtain ⟨hnone, hchildren⟩ := head.no_declaration [] ⟨opener.start, (skipBlock stop 1 inner).1⟩
    obtain ⟨hinner, hopener⟩ := head.start_lt htiles
    obtain ⟨hle, hleft⟩ := tiles_skipBlock 1 hinner
    rw [declarationsOf_cons hnone, hchildren]
    exact (ih hleft).of_le (by omega)
  | @broken n t ts head left _ _ _ _ _ _ _ run _ _ ih =>
    obtain ⟨rfl, hpos, hts⟩ := htiles
    rw [takeRun_eq_append run] at hts
    obtain ⟨middle, hhead, hleft⟩ := tiles_append.mp hts
    have hle := hhead.le
    obtain ⟨from', hfrom, hrest⟩ := tiles_afterBroken n hleft
    exact (ih hrest).of_le (by omega)

/-- The colors of a source, whatever texts its references stand for. They stand in order in the
source and apart. Each of them belongs to the value of one declaration, where it runs from a hash,
an identifier or a function to the end of the same token or of one behind it. In every run of
tokens, the search for colors gets turn by turn to the end of the run; wherever it may be on the
way, every next turn gets further and not past the end, and without a next turn it holds all
colors. -/
theorem colors_parse (source : String) (resolver : Option Resolver) :
    let sheet := (parse source).1
    InOrder 0 (Text.size source) ((sheet.colors resolver).map ColorMatch.span) ∧
      (∀ c ∈ sheet.colors resolver, ∃ d ∈ sheet.declarations, ∃ index first last,
        d.1.tokens[index]? = some first ∧ d.1.tokens[index + c.behind]? = some last ∧
          (first.kind = .hash ∨ first.kind = .ident ∨ first.kind = .function) ∧
          c.span = ⟨first.start, last.stop⟩) ∧
      ∀ tokens : List Token,
        Relation.ReflTransGen (ColorTurn resolver tokens) ⟨0, []⟩
            ⟨tokens.length, allColors resolver tokens⟩ ∧
          ∀ s, Relation.ReflTransGen (ColorTurn resolver tokens) ⟨0, []⟩ s →
            (∀ s', ColorTurn resolver tokens s s' →
              s.index < s'.index ∧ s'.index ≤ tokens.length) ∧
            (s = ⟨tokens.length, allColors resolver tokens⟩ ∨
              ∃ s', ColorTurn resolver tokens s s') := by
  intro sheet
  refine ⟨?_, ?_, fun tokens => ⟨?_, fun s hrun => ⟨fun _ hturn => hturn.advances, ?_⟩⟩⟩
  · have htiles := tiles_tokensFrom 0 source.toList
    rw [Nat.zero_add] at htiles
    have horder := (reads_parse source).inOrder_values htiles (inOrder_allColors resolver)
    have hcolors : (sheet.colors resolver).map ColorMatch.span =
        (declarationsOf sheet.children).flatMap fun d =>
          (allColors resolver d.tokens).map ColorMatch.span := by
      rw [Stylesheet.colors, Stylesheet.declarations, declarationsOf, List.flatMap_map,
        List.map_flatMap]
    exact hcolors ▸ horder
  · intro c hc
    obtain ⟨d, hd, hmem⟩ := List.mem_flatMap.mp hc
    obtain ⟨index, first, last, hfirst, hlast, hkind, hspan⟩ := exists_atFront_of_mem hmem
    rw [List.getElem?_drop] at hfirst hlast
    exact ⟨d, hd, index, first, last, hfirst, hlast, hkind, hspan⟩
  · have hstart : (ColorSearch.mk 0 []).index ≤ tokens.length := tokens.length.zero_le
    obtain ⟨found, hrun⟩ := exists_colorRun resolver hstart
    exact eq_of_colorRun hrun rfl ▸ hrun
  · rcases Nat.lt_or_eq_of_le (found_append_of_run hrun).1 with hlt | hend
    · exact .inr (exists_colorTurn resolver hlt)
    · exact .inl (eq_of_colorRun hrun hend)

end CssWorkbench
