import CssWorkbench.Layout.Format
import CssWorkbench.Proofs.Layout.PrintedValue

/-!
# Printed text in its place

What is printed of a tree stands somewhere in a new source. `ScannedAs` says where, and which tokens
are scanned there; these take just the characters that were printed. From tokens of which each gap
is one space the same characters are printed again.
-/

namespace CssWorkbench

variable {text source : String} {front cs cs' ds gap blanks : List Char} {t : Token}
  {tokens ts us run printed : List Token} {offset offset' : Nat} {c : Char}

/-- The characters start with one that is no blank. -/
def StartsSolid (cs : List Char) : Prop :=
  ∃ c behind, cs = c :: behind ∧ Text.isAsciiBlank c = false

/-- A text whose first character is no blank starts with no blank. -/
theorem startsSolid_of_head? (hne : cs ≠ []) (h : cs.head?.any Text.isAsciiBlank = false) :
    StartsSolid cs := by
  obtain ⟨c, behind, rfl⟩ := List.exists_cons_of_ne_nil hne
  exact ⟨c, behind, rfl, h⟩

/-- A text that starts with no blank does so with anything behind it. -/
theorem StartsSolid.append (h : StartsSolid cs) (ds : List Char) : StartsSolid (cs ++ ds) := by
  obtain ⟨c, behind, rfl, hc⟩ := h
  exact ⟨c, behind ++ ds, rfl, hc⟩

/-- The first character of a text that starts with no blank is no blank. -/
theorem StartsSolid.head? (h : StartsSolid cs) : cs.head?.any Text.isAsciiBlank = false := by
  obtain ⟨c, behind, rfl, hc⟩ := h
  exact hc

/-- Characters can stand at each offset of a text. -/
theorem exists_place (offset : Nat) (cs : List Char) :
    ∃ (text : String) (front : List Char), text.toList = front ++ cs ∧
      Text.byteLength front = offset := by
  refine ⟨String.ofList (List.replicate offset 'a' ++ cs), List.replicate offset 'a',
    String.toList_ofList, ?_⟩
  induction offset with
  | zero => rfl
  | succ offset ih =>
    rw [List.replicate_succ, Text.byteLength, ih, Nat.add_comm]
    rfl

/-- The characters `cs` stand in the text between `front` and `ds`, and are scanned into
`tokens`. -/
structure ScannedAs (text : String) (front cs ds : List Char) (tokens : List Token) : Prop where
  place : text.toList = front ++ (cs ++ ds)
  scan : tokensFrom (Text.byteLength front) (cs ++ ds) =
    tokens ++ tokensFrom (Text.byteLength (front ++ cs)) ds

/-- A scan that goes on with `ds` goes on where `ds` stands. -/
theorem tokensFrom_place (h : tokensFrom offset (cs ++ ds) = tokens ++ tokensFrom offset' ds) :
    tokensFrom offset' ds = tokensFrom (offset + Text.byteLength cs) ds ∧
      Tiles offset (offset + Text.byteLength cs) tokens := by
  have htiles := tiles_tokensFrom offset (cs ++ ds)
  rw [h, Text.byteLength_append] at htiles
  obtain ⟨middle, htokens, hrest⟩ := tiles_append.mp htiles
  cases ds with
  | nil =>
    rw [tokensFrom_nil] at hrest
    obtain rfl : middle = offset + (Text.byteLength cs + 0) := hrest
    exact ⟨by rw [tokensFrom_nil, tokensFrom_nil], htokens⟩
  | cons d ds =>
    have hself := tiles_tokensFrom offset' (d :: ds)
    obtain ⟨last, hlast⟩ : ∃ last, (tokensFrom offset' (d :: ds)).getLast? = some last := by
      rw [tokensFrom_cons]
      exact ⟨_, List.getLast?_cons⟩
    have hstop := hrest.getLast hlast
    rw [hself.getLast hlast] at hstop
    obtain rfl : offset' = offset + Text.byteLength cs := by omega
    have hmiddle : offset + Text.byteLength cs = middle := by
      rw [tokensFrom_cons] at hrest
      exact hrest.1
    exact ⟨rfl, hmiddle ▸ htokens⟩

/-- Where the characters stand, a scan of them is one in their place. -/
theorem scannedAs_of_tokensFrom (place : text.toList = front ++ (cs ++ ds))
    (h : tokensFrom (Text.byteLength front) (cs ++ ds) = tokens ++ tokensFrom offset' ds) :
    ScannedAs text front cs ds tokens := by
  refine ⟨place, ?_⟩
  rw [h, (tokensFrom_place h).1, Text.byteLength_append]

/-- The tokens tile the place of the characters. -/
theorem ScannedAs.tiles (h : ScannedAs text front cs ds tokens) :
    Tiles (Text.byteLength front) (Text.byteLength (front ++ cs)) tokens := by
  rw [Text.byteLength_append]
  exact (tokensFrom_place h.scan).2

/-- The texts of the tokens are the characters. -/
theorem ScannedAs.texts (h : ScannedAs text front cs ds tokens) :
    tokens.flatMap (fun t => (t.text text).toList) = cs := by
  have hwhole := flatMap_text_tokensFrom front h.place
  have hbehind := flatMap_text_tokensFrom (front ++ cs) (h.place.trans (List.append_assoc ..).symm)
  rw [h.scan, List.flatMap_append, hbehind] at hwhole
  exact List.append_cancel_right hwhole

/-- The first of the tokens is no blank if the characters start with none. -/
theorem ScannedAs.head?_ne_blank (h : ScannedAs text front cs ds tokens)
    (hfirst : (cs ++ ds).head?.any Text.isAsciiBlank = false) :
    ∀ t ∈ tokens.head?, t.kind ≠ .whitespace := by
  intro t ht hkind
  obtain ⟨ts, rfl⟩ := List.head?_eq_some_iff.mp ht
  have hscan := h.scan
  cases hchars : cs ++ ds with
  | nil =>
    rw [hchars, tokensFrom_nil] at hscan
    cases hscan
  | cons c chars =>
    rw [hchars, tokensFrom_cons] at hscan
    have hlexeme : (lexeme c chars).kind = .whitespace := by
      rw [← hkind, ← (List.cons.inj hscan).1]
      rfl
    have hblank := (isLexeme_lexeme c chars).isAsciiBlank_iff.mpr hlexeme
    simp [hchars, hblank] at hfirst

/-- Nothing is scanned as nothing. -/
theorem scannedAs_nil (place : text.toList = front ++ ds) : ScannedAs text front [] ds [] :=
  ⟨place, by rw [List.append_nil]; rfl⟩

/-- Characters that stand one behind the other are scanned one behind the other. -/
theorem ScannedAs.append (h : ScannedAs text front cs (cs' ++ ds) ts)
    (h' : ScannedAs text (front ++ cs) cs' ds us) :
    ScannedAs text front (cs ++ cs') ds (ts ++ us) := by
  refine ⟨by rw [h.place, List.append_assoc], ?_⟩
  rw [List.append_assoc, h.scan, h'.scan, List.append_assoc, List.append_assoc]

/-- What stands behind characters of a text that are scanned. -/
theorem ScannedAs.behind (h : ScannedAs text front cs ds tokens) :
    text.toList = (front ++ cs) ++ ds :=
  h.place.trans (List.append_assoc ..).symm

/-- Blanks in front of anything else are a token or none. -/
theorem scannedAs_blanks (hblanks : ∀ c ∈ blanks, Text.isAsciiBlank c = true)
    (place : text.toList = front ++ (blanks ++ ds))
    (hnext : ds.head?.any Text.isAsciiBlank = false) :
    ∃ gap, ScannedAs text front blanks ds gap ∧ ∀ t ∈ gap, t.kind = .whitespace := by
  obtain ⟨gap, offset', hscan, hgap, -⟩ :=
    tokensFrom_blanks hblanks hnext (Text.byteLength front)
  exact ⟨gap, scannedAs_of_tokensFrom place hscan, hgap⟩

/-- Blanks that are not missing are one token in front of anything else. -/
theorem scannedAs_space (hblanks : ∀ c ∈ blanks, Text.isAsciiBlank c = true) (hne : blanks ≠ [])
    (place : text.toList = front ++ (blanks ++ ds))
    (hnext : ds.head?.any Text.isAsciiBlank = false) :
    ∃ t, ScannedAs text front blanks ds [t] ∧ t.kind = .whitespace := by
  obtain ⟨space, offset', hscan, hspace, -⟩ :=
    tokensFrom_space hne hblanks hnext (Text.byteLength front)
  exact ⟨space, scannedAs_of_tokensFrom place hscan, hspace⟩

/-- A character that is inert and no blank is a token in its place. -/
theorem scannedAs_inert (place : text.toList = front ++ ([c] ++ ds)) (hc : isInert c = true)
    (hblank : Text.isAsciiBlank c = false) :
    ∃ t, ScannedAs text front [c] ds [t] ∧ t.kind = punctuationKind c := by
  obtain ⟨t, offset', hscan, hkind⟩ := tokensFrom_inert hc hblank ds (Text.byteLength front)
  exact ⟨t, scannedAs_of_tokensFrom place hscan, hkind⟩

/-- One token in a place spans the place. -/
theorem ScannedAs.span (h : ScannedAs text front cs ds [t]) :
    t.span = ⟨Text.byteLength front, Text.byteLength (front ++ cs)⟩ := by
  obtain ⟨hstart, -, hstop⟩ := h.tiles
  rw [← hstart, ← show t.stop = _ from hstop]
  rfl

/-- A blank is written as its value. -/
theorem text_eq_value_of_blank (place : text.toList = front ++ cs)
    (ht : t ∈ tokensFrom (Text.byteLength front) cs) (hkind : t.kind = .whitespace) :
    (t.text text).toList = t.value.toList := by
  induction hn : cs.length using Nat.strongRecOn generalizing front cs with
  | ind n ih =>
    cases cs with
    | nil => simp at ht
    | cons c cs =>
      have hwhole := append_lexeme place
      rw [tokensFrom_cons, List.mem_cons] at ht
      rcases ht with rfl | ht
      · have hblank : Text.isAsciiBlank c = true :=
          (isLexeme_lexeme c cs).isAsciiBlank_iff.mpr hkind
        rw [text_of_toList_eq hwhole rfl rfl, String.toList_ofList, Lexeme.token,
          String.toList_ofList, lexeme, if_pos hblank]
        rfl
      · rw [← List.append_assoc] at hwhole
        rw [← Text.byteLength_append] at ht
        exact ih _ (hn ▸ lexeme_rest_length c cs) hwhole ht rfl

/-- Where each gap is one space, the texts of the tokens are what is printed of them. -/
theorem spacedText_of_spaced {gap : Bool}
    (hblanks : ∀ t ∈ printed, t.kind = .whitespace → (t.text text).toList = t.value.toList)
    (hbare : printed.map Token.bare = spaced gap run) :
    spacedText text false printed = printed.flatMap fun t => (t.text text).toList := by
  induction run generalizing gap printed with
  | nil =>
    obtain rfl := List.map_eq_nil_iff.mp hbare
    rfl
  | cons t run ih =>
    rw [spaced] at hbare
    split at hbare
    · exact ih hblanks hbare
    · rename_i hsolid
      have hself : ∀ {gap printed}, (∀ u ∈ printed, u.kind = .whitespace →
            (u.text text).toList = u.value.toList) →
          printed.map Token.bare = t.bare :: spaced false run →
          (gap = true → t.is .rparen = false) →
          spacedText text gap printed =
            (if gap then [' '] else []) ++ printed.flatMap fun u => (u.text text).toList := by
        intro gap printed hblanks hbare hgap
        obtain ⟨u, us, rfl, hu, hus⟩ := List.map_eq_cons_iff.mp hbare
        have hkind : ∀ kind, u.is kind = t.is kind := fun kind => by
          rw [Token.is, Token.is, kind_eq_of_bare hu]
        rw [spacedText, hkind, if_neg hsolid, hkind, List.flatMap_cons,
          ih (fun v hv => hblanks v (List.mem_cons_of_mem _ hv)) hus]
        cases gap with
        | false => rfl
        | true => rw [hgap rfl]; rfl
      split at hbare
      · rename_i hspace
        obtain ⟨space, us, rfl, hspaceBare, hus⟩ := List.map_eq_cons_iff.mp hbare
        have hspaceKind : space.kind = .whitespace := by
          rw [← space.bare_kind, hspaceBare]
          rfl
        have hspaceText : (space.text text).toList = [' '] := by
          rw [hblanks space List.mem_cons_self hspaceKind, ← space.bare_value, hspaceBare]
          rfl
        have hparen : t.is .rparen = false := by simpa using (Bool.and_eq_true_iff.mp hspace).2
        rw [spacedText, if_pos (by simp [Token.is, hspaceKind]), List.flatMap_cons, hspaceText,
          hself (fun u hu => hblanks u (List.mem_cons_of_mem _ hu)) hus fun _ => hparen]
        rfl
      · exact hself hblanks hbare (by simp)

/-- What was printed of a run is printed again of the tokens that it is scanned into. -/
theorem ScannedAs.joinTokens_eq (h : ScannedAs text front cs ds printed)
    (hbare : printed.map Token.bare = spaced false run)
    (hfirst : ∀ t ∈ run.head?, t.kind ≠ .whitespace) :
    (joinTokens text printed).toList = cs := by
  have hblanks : ∀ t ∈ printed, t.kind = .whitespace → (t.text text).toList = t.value.toList := by
    intro t ht hkind
    refine text_eq_value_of_blank h.place ?_ hkind
    rw [h.scan]
    exact List.mem_append_left _ ht
  rw [toList_joinTokens h.tiles ((bareTokens_of_spaced hbare).2 hfirst),
    spacedText_of_spaced hblanks hbare, h.texts]

/-- Tokens that are scanned of a printed run do not end with a blank. -/
theorem getLast?_of_spaced {gap : Bool} (hbare : printed.map Token.bare = spaced gap run) :
    ∀ t ∈ printed.getLast?, t.kind ≠ .whitespace := by
  intro t ht
  have hlast : t.bare ∈ (printed.map Token.bare).getLast? := by
    rw [List.getLast?_map, Option.mem_def.mp ht]
    rfl
  exact getLast?_spaced gap run t.bare (hbare ▸ hlast)

/-- A run of a source that is printed somewhere is scanned into the tokens that were printed, perhaps
with blanks that an open escape at its end takes in; if it takes in none, the same is printed of
them again. -/
theorem scannedAs_printed {rest : List Token} (hrun : ∀ t ∈ run, t.needsLineBreak = false)
    (htail : TailOf source (run ++ rest) cs) (hrest : rest ≠ [])
    (hfirst : ∀ t ∈ run.head?, t.kind ≠ .whitespace)
    (hlast : ∀ t ∈ run.getLast?, t.kind ≠ .whitespace ∧ t.kind ≠ .function)
    (hds : FollowsRun source run ds)
    (place : text.toList = front ++ ((joinTokens source run).toList ++ ds)) :
    ∃ printed blanks left, TakesBlanks source run ds blanks left ∧
      ScannedAs text front ((joinTokens source run).toList ++ blanks) left printed ∧
      printed.map Token.bare = spaced false run ∧
        (blanks = [] → joinTokens text printed = joinTokens source run) := by
  obtain ⟨_, _, htiles⟩ := htail.tiles_front
  obtain ⟨printed, offset', blanks, left, hscan, hbare, htakes⟩ :=
    tokensFrom_printed hrun htail hrest hds hlast false (Text.byteLength front)
  rw [← toList_joinTokens htiles hfirst, htakes.append, ← List.append_assoc] at hscan
  have hplace : text.toList = front ++ ((joinTokens source run).toList ++ blanks ++ left) := by
    rw [place, htakes.append, List.append_assoc]
  have hplaced := scannedAs_of_tokensFrom hplace hscan
  refine ⟨printed, blanks, left, htakes, hplaced, hbare, fun hnone => ?_⟩
  rw [hnone, List.append_nil] at hplaced
  exact String.toList_inj.mp (hplaced.joinTokens_eq hbare hfirst)

/-- Where no escape is open, a run of a source that is printed somewhere is scanned into tokens of
which the same is printed again. -/
theorem scannedAs_run {rest : List Token} (hsource : Unbroken source)
    (htail : TailOf source (run ++ rest) cs) (hrest : rest ≠ [])
    (hfirst : ∀ t ∈ run.head?, t.kind ≠ .whitespace)
    (hlast : ∀ t ∈ run.getLast?, t.kind ≠ .whitespace ∧ t.kind ≠ .function) (hds : StartsInert ds)
    (place : text.toList = front ++ ((joinTokens source run).toList ++ ds)) :
    ∃ printed, ScannedAs text front (joinTokens source run).toList ds printed ∧
      printed.map Token.bare = spaced false run ∧
        joinTokens text printed = joinTokens source run := by
  have hclosed := hsource.closed htail
  obtain ⟨printed, blanks, left, htakes, hscan, hbare, hjoin⟩ := scannedAs_printed
    (hsource.not_needsLineBreak htail) htail hrest hfirst hlast (followsRun_of_closed hclosed hds)
    place
  obtain ⟨hnone, rfl⟩ := htakes.eq_nil hclosed
  rw [hnone, List.append_nil] at hscan
  exact ⟨printed, hscan, hbare, hjoin hnone⟩

/-- A space and a run of a source are scanned into blanks and the tokens that were printed, which
start with no blank. -/
theorem scannedAs_spacedPrinted {rest : List Token} (hrun : ∀ t ∈ run, t.needsLineBreak = false)
    (htail : TailOf source (run ++ rest) cs) (hrest : rest ≠ []) (hne : run ≠ [])
    (hfirst : ∀ t ∈ run.head?, t.kind ≠ .whitespace)
    (hlast : ∀ t ∈ run.getLast?, t.kind ≠ .whitespace ∧ t.kind ≠ .function)
    (hds : FollowsRun source run ds)
    (place : text.toList = front ++ (' ' :: (joinTokens source run).toList ++ ds)) :
    ∃ gap u us blanks left, TakesBlanks source run ds blanks left ∧
      ScannedAs text front (' ' :: (joinTokens source run).toList ++ blanks) left (gap ++ u :: us) ∧
      (∀ v ∈ gap, v.kind = .whitespace) ∧ u.kind ≠ .whitespace ∧
      (u :: us).map Token.bare = spaced false run ∧
        (blanks = [] → joinTokens text (u :: us) = joinTokens source run) := by
  obtain ⟨c, chars, hchars, hblank⟩ := head?_spacedText htail hne hfirst
  obtain ⟨_, _, htiles⟩ := htail.tiles_front
  rw [← toList_joinTokens htiles hfirst] at hchars
  obtain ⟨gap, hscanGap, hgap⟩ := scannedAs_blanks isAsciiBlank_of_mem_space place
    (by rw [hchars]; exact hblank)
  obtain ⟨printed, blanks, left, htakes, hscan, hbare, hjoin⟩ :=
    scannedAs_printed hrun htail hrest hfirst hlast hds hscanGap.behind
  have hbehind : (joinTokens source run).toList.append ds =
      (joinTokens source run).toList ++ blanks ++ left := by
    rw [htakes.append, List.append_assoc]
    rfl
  rw [hbehind] at hscanGap
  cases printed with
  | nil =>
    obtain ⟨t, run, rfl⟩ := List.exists_cons_of_ne_nil hne
    rw [spaced, if_neg (by simpa [Token.is] using hfirst)] at hbare
    cases hbare
  | cons u us =>
    exact ⟨gap, u, us, blanks, left, htakes, hscanGap.append hscan, hgap,
      (bareTokens_of_spaced hbare).2 hfirst u rfl, hbare, hjoin⟩

/-- A space and a run of a source are scanned into blanks and into tokens of which the same is
printed again; these start with no blank. -/
theorem scannedAs_spacedRun {rest : List Token} (hsource : Unbroken source)
    (htail : TailOf source (run ++ rest) cs) (hrest : rest ≠ []) (hne : run ≠ [])
    (hfirst : ∀ t ∈ run.head?, t.kind ≠ .whitespace)
    (hlast : ∀ t ∈ run.getLast?, t.kind ≠ .whitespace ∧ t.kind ≠ .function) (hds : StartsInert ds)
    (place : text.toList = front ++ (' ' :: (joinTokens source run).toList ++ ds)) :
    ∃ gap u us, ScannedAs text front (' ' :: (joinTokens source run).toList) ds (gap ++ u :: us) ∧
      (∀ v ∈ gap, v.kind = .whitespace) ∧ u.kind ≠ .whitespace ∧
      (u :: us).map Token.bare = spaced false run ∧
        joinTokens text (u :: us) = joinTokens source run := by
  have hclosed := hsource.closed htail
  obtain ⟨gap, u, us, blanks, left, htakes, hscan, hgap, hu, hbare, hjoin⟩ :=
    scannedAs_spacedPrinted (hsource.not_needsLineBreak htail) htail hrest hne hfirst hlast
      (followsRun_of_closed hclosed hds) place
  obtain ⟨hnone, rfl⟩ := htakes.eq_nil hclosed
  rw [hnone, List.append_nil] at hscan
  exact ⟨gap, u, us, hscan, hgap, hu, hbare, hjoin hnone⟩

/-- A token of a source that is printed somewhere is scanned again, if it is neither a blank nor a
function. -/
theorem scannedAs_token {rest : List Token} (hsource : Unbroken source)
    (htail : TailOf source (t :: rest) cs) (hrest : rest ≠ [])
    (ht : t.kind ≠ .whitespace ∧ t.kind ≠ .function) (hds : StartsInert ds)
    (place : text.toList = front ++ ((t.text source).toList ++ ds)) :
    ∃ u, ScannedAs text front (t.text source).toList ds [u] ∧ u.bare = t.bare := by
  have hblank : ¬ t.is .whitespace = true := by simpa [Token.is] using ht.1
  have htext : joinTokens source [t] = t.text source := by
    rw [joinTokens, joinTokensAfter, if_neg hblank]
    simp [joinTokensAfter]
  rw [← htext] at place ⊢
  obtain ⟨printed, hplaced, hbare, -⟩ := @scannedAs_run text source front cs ds [t] rest hsource
    htail hrest (by simpa using ht.1) (by simpa using ht) hds place
  rw [spaced, if_neg hblank, spaced] at hbare
  obtain ⟨u, rfl, hu⟩ : ∃ u, printed = [u] ∧ u.bare = t.bare := by
    simpa [List.map_eq_singleton_iff] using hbare
  exact ⟨u, hplaced, hu⟩

/-- Whether a blank line stands somewhere is seen from the characters there. -/
theorem blankLineBetween_of_place (place : text.toList = front ++ (gap ++ ds)) :
    blankLineBetween text (Text.byteLength front) (Text.byteLength (front ++ gap)) =
      decide (2 ≤ gap.count '\n') := by
  rw [blankLineBetween, Text.byteLength_append, Text.slice?_of_toList_eq place]

/-- Whether a stretch is on one line is seen from its characters. -/
theorem onOneLine_of_place (place : text.toList = front ++ (cs ++ ds)) :
    onOneLine text ⟨Text.byteLength front, Text.byteLength (front ++ cs)⟩ = !cs.contains '\n' := by
  rw [onOneLine, place, ← List.append_assoc, Text.byteLength_append, Span.chars_append]

end CssWorkbench
