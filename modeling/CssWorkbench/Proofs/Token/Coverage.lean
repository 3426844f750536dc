import Mathlib.Data.List.Chain
import CssWorkbench.Token.Scanner

/-!
# The tokens of a scan tile the source

The scanner hands over exactly where a token stops. Its tokens therefore meet one another without
a gap or an overlap, from the first byte of the source to the last, and they meet between
characters: offsets are compared here with the places that core's own notion of a valid UTF-8
position allows.

`tokensFrom` is the scan without its end token, which is what the parser reads.
-/

namespace CssWorkbench

/-! ## Tokens that tile a stretch -/

section Tiling

variable {start stop middle : Nat} {t u : Token} {ts us : List Token}

/-- Tokens that are not empty and follow one another without a gap from `start` to `stop`. -/
def Tiles (start stop : Nat) : List Token → Prop
  | [] => start = stop
  | t :: ts => t.start = start ∧ t.start < t.stop ∧ Tiles t.stop stop ts

/-- Where a list of tiling tokens is cut, the stretch is cut as well. -/
theorem tiles_append : Tiles start stop (ts ++ us) ↔
    ∃ middle, Tiles start middle ts ∧ Tiles middle stop us := by
  induction ts generalizing start with
  | nil => simp [Tiles]
  | cons t ts ih => simp only [List.cons_append, Tiles, ih, and_assoc, exists_and_left]

/-- Tokens that follow one another stop no sooner than they start. -/
theorem Tiles.le (h : Tiles start stop ts) : start ≤ stop := by
  induction ts generalizing start with
  | nil => exact Nat.le_of_eq h
  | cons t ts ih =>
    obtain ⟨hstart, hpos, hrest⟩ := h
    have hle := ih hrest
    omega

/-- Tokens that follow one another stop later than they start, if there are any. -/
theorem Tiles.lt (h : Tiles start stop ts) (hne : ts ≠ []) : start < stop := by
  cases ts with
  | nil => exact absurd rfl hne
  | cons t ts =>
    obtain ⟨hstart, hpos, hrest⟩ := h
    have hle := hrest.le
    omega

/-- Each of the tokens lies in the stretch. -/
theorem Tiles.of_mem (h : Tiles start stop ts) (ht : t ∈ ts) :
    start ≤ t.start ∧ t.start < t.stop ∧ t.stop ≤ stop := by
  obtain ⟨front, behind, rfl⟩ := List.append_of_mem ht
  obtain ⟨middle, hfront, hmiddle, hpos, hbehind⟩ := tiles_append.mp h
  have hleft := hfront.le
  have hright := hbehind.le
  omega

/-- A span around a stretch lies around each of the tokens that tile the stretch. -/
theorem Tiles.covers (h : Tiles start stop ts) (hu : u ∈ ts) {e : Nat} (hle : stop ≤ e) :
    (Span.mk start e).covers u.span = true := by
  obtain ⟨hstart, -, hstop⟩ := h.of_mem hu
  exact Span.covers_iff.mpr ⟨hstart, Nat.le_trans hstop hle⟩

/-- Tokens that follow one another stop where the last of them does. -/
theorem Tiles.getLast (h : Tiles start stop ts) (hlast : ts.getLast? = some t) : t.stop = stop := by
  obtain ⟨front, rfl⟩ := List.getLast?_eq_some_iff.mp hlast
  obtain ⟨_, _, _, _, hstop⟩ := tiles_append.mp h
  exact hstop

/-- A run of the tokens tiles a stretch of its own. -/
theorem Tiles.exists_of_run (h : Tiles start stop ts) (hrun : us <:+: ts) :
    ∃ first last, Tiles first last us := by
  obtain ⟨front, behind, rfl⟩ := hrun
  obtain ⟨_, hfront, -⟩ := tiles_append.mp h
  obtain ⟨_, -, hmiddle⟩ := tiles_append.mp hfront
  exact ⟨_, _, hmiddle⟩

/-- Tokens that tile a stretch are different ones. -/
theorem Tiles.nodup (h : Tiles start stop ts) : ts.Nodup := by
  induction ts generalizing start with
  | nil => exact List.nodup_nil
  | cons t ts ih =>
    obtain ⟨rfl, hpos, hrest⟩ := h
    refine List.nodup_cons.mpr ⟨fun hmem => ?_, ih hrest⟩
    have hbounds := hrest.of_mem hmem
    omega

/-- Tokens that tile a stretch from the same place on stop at the same place. -/
theorem Tiles.stop_unique {stop' : Nat} (h : Tiles start stop ts) (h' : Tiles start stop' ts) :
    stop = stop' := by
  induction ts generalizing start with
  | nil => exact Eq.trans (Eq.symm h) h'
  | cons t ts ih => exact ih h.2.2 h'.2.2

/-- Tiling tokens meet one another and the place where they stop. -/
theorem Tiles.isChain_append (h : Tiles start stop ts) :
    (ts ++ [Token.eof stop]).IsChain (fun t u => t.stop = u.start) := by
  induction ts generalizing start with
  | nil => exact .singleton _
  | cons t ts ih =>
    obtain ⟨-, -, hrest⟩ := h
    cases ts with
    | nil => exact .cons_cons hrest (.singleton _)
    | cons u ts => exact .cons_cons hrest.1.symm (ih hrest)

end Tiling

/-! ## Places of a source -/

namespace Text

/-- Byte lengths of character lists are those of the strings they make up. -/
theorem utf8ByteSize_ofList (cs : List Char) : (String.ofList cs).utf8ByteSize = byteLength cs := by
  induction cs with
  | nil => rfl
  | cons c cs ih =>
    have hsplit : String.ofList (c :: cs) = String.singleton c ++ String.ofList cs := by
      rw [String.singleton_eq_ofList, ← String.ofList_append, List.singleton_append]
    rw [hsplit, String.utf8ByteSize_append, String.utf8ByteSize_singleton, ih, byteLength_cons]

/-- A text may be cut behind any part that makes up its front. -/
theorem isValid_of_toList_eq {source : String} {front behind : List Char}
    (h : source.toList = front ++ behind) :
    (String.Pos.Raw.mk (byteLength front)).IsValid source := by
  rw [String.Pos.Raw.isValid_iff_exists_take_toList]
  refine ⟨front.length, ?_⟩
  rw [h, List.take_left, utf8ByteSize_ofList]

/-- Between two places of a text stands the part that is sliced there. -/
theorem slice?_byteLength_append (front part behind : List Char) :
    slice? (byteLength front) (byteLength front + byteLength part) (front ++ (part ++ behind)) =
      some part := by
  rw [slice?, if_pos (Nat.le_add_right ..), dropBytes_byteLength_append, Option.bind_some,
    Nat.add_sub_cancel_left, takeBytes_byteLength_append]

/-- A part of a source is what its span cuts out. -/
theorem slice?_of_toList_eq {source : String} {front part behind : List Char}
    (h : source.toList = front ++ (part ++ behind)) :
    slice? (byteLength front) (byteLength front + byteLength part) source.toList = some part := by
  rw [h]
  exact slice?_byteLength_append front part behind

end Text

/-- The tokens of a text that starts at `offset`, the end token left out. -/
def tokensFrom (offset : Nat) (cs : List Char) : List Token :=
  (scanFrom offset cs).dropLast

/-- At the end there are no tokens. -/
@[simp] theorem tokensFrom_nil (offset : Nat) : tokensFrom offset [] = [] := by
  simp [tokensFrom, scanFrom]

/-- The first token is the first lexeme, and the others are those of what is left behind it. -/
theorem tokensFrom_cons (offset : Nat) (c : Char) (cs : List Char) :
    tokensFrom offset (c :: cs) = (lexeme c cs).token offset ::
      tokensFrom (offset + Text.byteLength (lexeme c cs).taken) (lexeme c cs).rest := by
  have hne : ∀ o ds, scanFrom o ds ≠ [] := fun o ds => by unfold scanFrom; split <;> simp
  rw [tokensFrom, scanFrom, List.dropLast_cons_of_ne_nil (hne _ _), tokensFrom]

/-- A scan is its tokens with the end token behind them, at the end of the text. -/
theorem scanFrom_eq_append (offset : Nat) (cs : List Char) :
    scanFrom offset cs = tokensFrom offset cs ++ [Token.eof (offset + Text.byteLength cs)] := by
  fun_induction scanFrom offset cs with
  | case1 offset => simp
  | case2 offset c cs ih =>
    have hlength := congrArg Text.byteLength (lexeme_append c cs)
    rw [Text.byteLength_append] at hlength
    rw [tokensFrom_cons, ih, List.cons_append, ← hlength, Nat.add_assoc]

/-- The text that a scan starts with is cut into the text of its first token and the rest. -/
theorem append_lexeme {front cs whole : List Char} {c : Char}
    (h : whole = front ++ c :: cs) :
    whole = front ++ ((lexeme c cs).taken ++ (lexeme c cs).rest) := by
  rw [lexeme_append, h]

/-- A token is not empty. -/
theorem byteLength_taken_pos (c : Char) (cs : List Char) :
    0 < Text.byteLength (lexeme c cs).taken := by
  rw [Nat.pos_iff_ne_zero, Ne, Text.byteLength_eq_zero_iff]
  exact lexeme_taken_ne_nil c cs

/-- No character is the end. -/
theorem punctuationKind_ne_eof (c : Char) : punctuationKind c ≠ .eof := by
  unfold punctuationKind
  split <;> decide

/-- No lexeme that starts with a number is the end. -/
theorem numericLexeme_kind_ne_eof (cs : List Char) : (numericLexeme cs).kind ≠ .eof := by
  unfold numericLexeme
  simp only
  split
  · simp
  · split <;> simp [Lexeme.verbatim]

/-- No lexeme that starts with a name is the end. -/
theorem nameLexeme_kind_ne_eof (cs : List Char) : (nameLexeme cs).kind ≠ .eof := by
  unfold nameLexeme
  simp only
  split
  · split
    · split
      · simp
      · split <;> simp [Lexeme.verbatim]
    · simp
  · simp [Lexeme.ofStretch]

/-- Nothing in a text reads as its end. -/
theorem lexeme_kind_ne_eof (c : Char) (cs : List Char) : (lexeme c cs).kind ≠ .eof := by
  unfold lexeme
  split
  · simp [Lexeme.verbatim]
  split
  · simp
  split
  · simp only [Lexeme.ofStretch]
    split <;> simp
  split
  · exact numericLexeme_kind_ne_eof _
  split
  · simp [Lexeme.ofStretch]
  split
  · simp [Lexeme.ofStretch]
  split
  · simp [Lexeme.verbatim]
  split
  · simp [Lexeme.verbatim]
  split
  · exact nameLexeme_kind_ne_eof _
  · exact punctuationKind_ne_eof c

/-- The tokens of a text tile the stretch that the text takes. -/
theorem tiles_tokensFrom (offset : Nat) (cs : List Char) :
    Tiles offset (offset + Text.byteLength cs) (tokensFrom offset cs) := by
  fun_induction scanFrom offset cs with
  | case1 offset => simp [Tiles]
  | case2 offset c cs ih =>
    have hlength := congrArg Text.byteLength (lexeme_append c cs)
    rw [Text.byteLength_append] at hlength
    rw [tokensFrom_cons, ← hlength, ← Nat.add_assoc]
    exact ⟨rfl, Nat.lt_add_of_pos_right (byteLength_taken_pos c cs), ih⟩

/-- The tokens of a source without the end token, which is what the parser reads. -/
theorem dropLast_scan (source : String) : (scan source).dropLast = tokensFrom 0 source.toList := rfl

/-- A scan gives the tokens of the source and then the end. -/
theorem scan_eq_append (source : String) :
    scan source = tokensFrom 0 source.toList ++ [Token.eof (Text.size source)] := by
  rw [scan, scanFrom_eq_append, Nat.zero_add, Text.size]

/-- A token of a source is the lexeme that starts where the token does. -/
theorem exists_lexeme_of_mem_tokensFrom {source : String} (front : List Char) {cs : List Char}
    (h : source.toList = front ++ cs) {t : Token}
    (ht : t ∈ tokensFrom (Text.byteLength front) cs) :
    ∃ before c behind, source.toList = before ++ c :: behind ∧
      t = (lexeme c behind).token (Text.byteLength before) := by
  induction hn : cs.length using Nat.strongRecOn generalizing front cs with
  | ind n ih =>
    cases cs with
    | nil => simp at ht
    | cons c cs =>
      have hwhole := append_lexeme h
      rw [tokensFrom_cons, List.mem_cons] at ht
      rcases ht with rfl | ht
      · exact ⟨front, c, cs, h, rfl⟩
      · rw [← List.append_assoc] at hwhole
        rw [← Text.byteLength_append] at ht
        exact ih _ (hn ▸ lexeme_rest_length c cs) _ hwhole ht rfl

/-- What a token was read from is cut out of the source by the span of the token. -/
theorem exists_part_of_mem_tokensFrom {source : String} (front : List Char) {cs : List Char}
    (h : source.toList = front ++ cs) {t : Token}
    (ht : t ∈ tokensFrom (Text.byteLength front) cs) :
    t.kind ≠ .eof ∧ ∃ before part behind, part ≠ [] ∧ source.toList = before ++ (part ++ behind) ∧
      t.start = Text.byteLength before ∧ t.stop = t.start + Text.byteLength part := by
  obtain ⟨before, c, behind, hsource, rfl⟩ := exists_lexeme_of_mem_tokensFrom front h ht
  exact ⟨lexeme_kind_ne_eof c behind, before, (lexeme c behind).taken, (lexeme c behind).rest,
    lexeme_taken_ne_nil c behind, append_lexeme hsource, rfl, rfl⟩

/-- The texts of the tokens behind a part of the source make up the rest of it. -/
theorem flatMap_text_tokensFrom {source : String} (front : List Char) {cs : List Char}
    (h : source.toList = front ++ cs) :
    (tokensFrom (Text.byteLength front) cs).flatMap (fun t => (t.text source).toList) = cs := by
  induction hn : cs.length using Nat.strongRecOn generalizing front cs with
  | ind n ih =>
    cases cs with
    | nil => simp
    | cons c cs =>
      have hwhole := append_lexeme h
      have htext : (((lexeme c cs).token (Text.byteLength front)).text source).toList =
          (lexeme c cs).taken := by
        rw [← List.append_assoc] at hwhole
        simp only [Token.text, Span.text, hwhole, Lexeme.token, Span.chars_append,
          String.toList_ofList]
      rw [← List.append_assoc] at hwhole
      rw [tokensFrom_cons, List.flatMap_cons, htext, ← Text.byteLength_append,
        ih _ (hn ▸ lexeme_rest_length c cs) _ hwhole rfl, lexeme_append]

/-- A list of tokens covers a source: from its first byte to its last without a gap, each token
but the last taking something, the last one alone being the end; and every token is cut out at
places where UTF-8 allows a cut. -/
structure Covers (source : String) (tokens : List Token) : Prop where
  starts : tokens.head?.map Token.start = some 0
  meets : tokens.IsChain fun t u => t.stop = u.start
  takes : ∀ t ∈ tokens.dropLast, t.start < t.stop ∧ t.kind ≠ .eof
  ends : tokens.getLast? = some (Token.eof (Text.size source))
  boundary : ∀ t ∈ tokens, (String.Pos.Raw.mk t.start).IsValid source ∧
    (String.Pos.Raw.mk t.stop).IsValid source
  sliced : ∀ t ∈ tokens, Text.slice? t.start t.stop source.toList = some (t.text source).toList
  spelled : tokens.flatMap (fun t => (t.text source).toList) = source.toList

/-- Between two places of a source the text of a token is what stands there. -/
theorem text_of_toList_eq {source : String} {before part behind : List Char} {t : Token}
    (h : source.toList = before ++ (part ++ behind)) (hstart : t.start = Text.byteLength before)
    (hstop : t.stop = t.start + Text.byteLength part) : t.text source = String.ofList part := by
  have hspan : t.span = ⟨Text.byteLength before, Text.byteLength before + Text.byteLength part⟩ := by
    rw [← hstart, ← hstop]
    rfl
  rw [Token.text, hspan, Span.text, h, ← List.append_assoc, Span.chars_append]

/-- The tokens of a scan cover the source. -/
theorem covers_scan (source : String) : Covers source (scan source) := by
  have hscan := scan_eq_append source
  have htiles := tiles_tokensFrom 0 source.toList
  rw [Nat.zero_add] at htiles
  have hpart : ∀ t ∈ scan source, ∃ before part behind,
      source.toList = before ++ (part ++ behind) ∧ t.start = Text.byteLength before ∧
        t.stop = t.start + Text.byteLength part := by
    intro t ht
    rw [hscan, List.mem_append, List.mem_singleton] at ht
    rcases ht with ht | rfl
    · obtain ⟨-, before, part, behind, -, hwhole, hstart, hstop⟩ :=
        exists_part_of_mem_tokensFrom [] rfl ht
      exact ⟨before, part, behind, hwhole, hstart, hstop⟩
    · exact ⟨source.toList, [], [], by simp, rfl, rfl⟩
  refine ⟨?_, ?_, ?_, ?_, ?_, ?_, ?_⟩
  · rw [hscan]
    cases htokens : tokensFrom 0 source.toList with
    | nil =>
      rw [htokens] at htiles
      simp [Token.eof, Token.start, Span.single, Text.size, ← show 0 = _ from htiles]
    | cons t ts =>
      rw [htokens] at htiles
      simp [htiles.1]
  · rw [hscan]
    exact htiles.isChain_append
  · intro t ht
    rw [dropLast_scan] at ht
    obtain ⟨hkind, before, part, behind, hpart, -, -, hstop⟩ :=
      exists_part_of_mem_tokensFrom [] rfl ht
    have hpos := Nat.pos_iff_ne_zero.mpr (mt Text.byteLength_eq_zero_iff.mp hpart)
    exact ⟨by omega, hkind⟩
  · rw [hscan, List.getLast?_concat]
  · intro t ht
    obtain ⟨before, part, behind, hwhole, hstart, hstop⟩ := hpart t ht
    have hbehind := Text.isValid_of_toList_eq (hwhole.trans (List.append_assoc ..).symm)
    rw [Text.byteLength_append, ← hstart, ← hstop] at hbehind
    exact ⟨hstart ▸ Text.isValid_of_toList_eq hwhole, hbehind⟩
  · intro t ht
    obtain ⟨before, part, behind, hwhole, hstart, hstop⟩ := hpart t ht
    rw [text_of_toList_eq hwhole hstart hstop, String.toList_ofList, hstop, hstart]
    exact Text.slice?_of_toList_eq hwhole
  · have heof : ((Token.eof (Text.size source)).text source).toList = [] := by
      rw [@text_of_toList_eq source source.toList [] [] _ (by simp) rfl rfl, String.toList_ofList]
    rw [hscan, List.flatMap_append, List.flatMap_singleton, heof, List.append_nil]
    exact flatMap_text_tokensFrom [] rfl

end CssWorkbench
