import CssWorkbench.Proofs.Text.Bytes

/-!
# Open braces, counted by byte offsets

The braces that a text leaves open are counted once more, over its bytes and with an offset that
moves along. The offset may stop inside a character, but only in front of a comment is the text
sliced, and there the offset is between characters: every slice succeeds and the count is the same.
-/

namespace CssWorkbench

/-- What is computed with slices of a text. `none` stands for a slice that splits a character. -/
abbrev Sliced (α : Type) := Option α

namespace Sliced

open Text

/-- The offset of the first `*/`. -/
def closer? : List Char → Option Nat
  | [] => none
  | c :: cs =>
    if c = '*' && cs.head? = some '/' then some 0
    else (closer? cs).map (c.utf8Size + ·)

/-- The number of bytes up to the end of a string: its quote, the end of the line, or nothing left. A
backslash takes the byte behind it along. -/
def quotedLength (quote : UInt8) : List UInt8 → Nat
  | [] => 0
  | b :: bs =>
    if b = quote || b = '\n'.toUInt8 then 0
    else if b = '\\'.toUInt8 then
      match bs with
      | [] => 2
      | _ :: rest => quotedLength quote rest + 2
    else quotedLength quote bs + 1

/-- The braces left open by a text from an offset on, in front of which `depth` are open. -/
def bracesFrom (text : List Char) (offset depth : Nat) : Sliced Nat :=
  match left : (bytes text).drop offset with
  | [] => some depth
  | b :: bs =>
    if b = '/'.toUInt8 && bs.head? = some '*'.toUInt8 then
      (dropBytes (offset + 2) text).bind fun inner =>
        match closer? inner with
        | some stop => bracesFrom text (offset + 2 + stop + 2) depth
        | none => some depth
    else if b = '"'.toUInt8 || b = '\''.toUInt8 then
      bracesFrom text (offset + 1 + quotedLength b bs + 1) depth
    else if b = '\x7b'.toUInt8 then bracesFrom text (offset + 1) (depth + 1)
    else if b = '\x7d'.toUInt8 then bracesFrom text (offset + 1) (depth - 1)
    else bracesFrom text (offset + 1) depth
termination_by (bytes text).length - offset
decreasing_by
  all_goals
    have hlength := congrArg List.length left
    rw [List.length_drop, List.length_cons] at hlength
    omega

/-- The braces that a text leaves open. -/
def braceDepth (text : List Char) : Sliced Nat :=
  bracesFrom text 0 0

variable {a cs : List Char} {c d quote : Char} {depth offset : Nat} {b : UInt8} {bs rest : List UInt8}

/-- Behind the bytes of a front are those of what stands behind it. -/
theorem drop_bytes_append (a cs : List Char) : (bytes (a ++ cs)).drop (byteLength a) = bytes cs := by
  rw [bytes_append, ← length_bytes, List.drop_left]

/-! ## Comments -/

/-- A comment is left behind its `*/`, or not at all. -/
theorem braceDepth_comment (depth : Nat) (cs : List Char) :
    match closer? cs with
    | some stop => ∃ inner rest, cs = inner ++ '*' :: '/' :: rest ∧ stop = byteLength inner ∧
        CssWorkbench.braceDepth .comment depth cs = CssWorkbench.braceDepth .plain depth rest
    | none => CssWorkbench.braceDepth .comment depth cs = depth := by
  induction cs with
  | nil => rfl
  | cons c cs ih =>
    rw [closer?]
    by_cases hclose : (c = '*' && cs.head? = some '/') = true
    · rw [if_pos hclose]
      simp only [Bool.and_eq_true, decide_eq_true_eq] at hclose
      obtain ⟨rfl, hnext⟩ := hclose
      obtain ⟨rest, rfl⟩ := List.head?_eq_some_iff.mp hnext
      exact ⟨[], rest, rfl, rfl, rfl⟩
    · have hpass : CssWorkbench.braceDepth .comment depth (c :: cs) =
          CssWorkbench.braceDepth .comment depth cs := by
        rw [CssWorkbench.braceDepth.eq_def]
        exact if_neg hclose
      rw [if_neg hclose, hpass]
      cases hfound : closer? cs with
      | none =>
        rw [hfound] at ih
        exact ih
      | some stop =>
        rw [hfound] at ih
        obtain ⟨inner, rest, rfl, rfl, hdepth⟩ := ih
        exact ⟨c :: inner, rest, rfl, rfl, hdepth⟩

/-! ## Strings -/

/-- Bytes that say nothing in a string are passed over. -/
theorem quotedLength_append {q : UInt8} (h : ∀ b ∈ bs, b ≠ q ∧ b ≠ '\n'.toUInt8 ∧ b ≠ '\\'.toUInt8) :
    quotedLength q (bs ++ rest) = quotedLength q rest + bs.length := by
  induction bs with
  | nil => rfl
  | cons b bs ih =>
    obtain ⟨⟨hquote, hline, hescape⟩, hrest⟩ := List.forall_mem_cons.mp h
    have hpass : quotedLength q (b :: (bs ++ rest)) = quotedLength q (bs ++ rest) + 1 := by
      rw [quotedLength.eq_def]
      simp [hquote, hline, hescape]
    rw [List.cons_append, hpass, ih hrest, List.length_cons, Nat.add_assoc]

/-- A string ends at its quote or at a line feed. -/
theorem quotedLength_end (hascii : quote.toNat < 0x80) (hend : c = quote ∨ c = '\n')
    (cs : List Char) : quotedLength quote.toUInt8 (bytes (c :: cs)) = 0 := by
  have hc : c.toNat < 0x80 := by
    rcases hend with rfl | rfl
    · exact hascii
    · decide
  have hbyte : (c.toUInt8 = quote.toUInt8 || c.toUInt8 = '\n'.toUInt8) = true := by
    rcases hend with rfl | rfl <;> simp
  rw [bytes_cons, utf8EncodeChar_of_lt hc, List.singleton_append, quotedLength.eq_def]
  exact if_pos hbyte

/-- A string goes on over any other character. -/
theorem quotedLength_pass (hascii : quote.toNat < 0x80) (hquote : c ≠ quote) (hline : c ≠ '\n')
    (hescape : c ≠ '\\') (cs : List Char) :
    quotedLength quote.toUInt8 (bytes (c :: cs)) =
      quotedLength quote.toUInt8 (bytes cs) + c.utf8Size := by
  rw [bytes_cons, quotedLength_append, String.length_utf8EncodeChar]
  intro b hb
  exact ⟨(eq_toUInt8_iff hascii hb).not.mpr hquote, (eq_toUInt8_iff (by decide) hb).not.mpr hline,
    (eq_toUInt8_iff (by decide) hb).not.mpr hescape⟩

/-- Only the first byte of an escaped character is hidden; the others say nothing. -/
theorem quotedLength_escape (hascii : quote.toNat < 0x80) (hquote : '\\' ≠ quote) (d : Char)
    (cs : List Char) : quotedLength quote.toUInt8 (bytes ('\\' :: d :: cs)) =
      quotedLength quote.toUInt8 (bytes cs) + (1 + d.utf8Size) := by
  have hsize := String.length_utf8EncodeChar d
  have htail := @le_of_mem_tail d
  have hother : '\\'.toUInt8 ≠ quote.toUInt8 := fun heq =>
    hquote ((eq_toUInt8_iff hascii (show '\\'.toUInt8 ∈ String.utf8EncodeChar '\\' by decide)).mp heq)
  have hline : '\\'.toUInt8 ≠ '\n'.toUInt8 := by decide
  rw [bytes_cons, bytes_cons]
  cases hd : String.utf8EncodeChar d with
  | nil => exact absurd hd String.utf8EncodeChar_ne_nil
  | cons first tail =>
    rw [hd] at hsize htail
    have hstep : quotedLength quote.toUInt8 ('\\'.toUInt8 :: first :: (tail ++ bytes cs)) =
        quotedLength quote.toUInt8 (tail ++ bytes cs) + 2 := by
      rw [quotedLength.eq_def]
      simp [hother, hline]
    have hpass := @quotedLength_append tail (bytes cs) quote.toUInt8 fun b hb =>
      ⟨ne_toUInt8_of_le hascii (htail hb), ne_toUInt8_of_le (by decide) (htail hb),
        ne_toUInt8_of_le (by decide) (htail hb)⟩
    rw [List.length_cons] at hsize
    show quotedLength quote.toUInt8 ('\\'.toUInt8 :: first :: (tail ++ bytes cs)) = _
    rw [hstep, hpass]
    omega

/-- How a string that is open in front of a text ends: with an ASCII character behind which the count
goes on, or not in the text. -/
def StringEnds (quote : Char) (depth : Nat) (cs : List Char) : Prop :=
  (∃ inner c rest, cs = inner ++ c :: rest ∧ c.utf8Size = 1 ∧
    quotedLength quote.toUInt8 (bytes cs) = byteLength inner ∧
    CssWorkbench.braceDepth (.quoted quote) depth cs = CssWorkbench.braceDepth .plain depth rest) ∨
  byteLength cs ≤ quotedLength quote.toUInt8 (bytes cs) ∧
    CssWorkbench.braceDepth (.quoted quote) depth cs = depth

/-- Characters that are passed over do not change how a string ends. -/
theorem StringEnds.append (h : StringEnds quote depth cs) (taken : List Char)
    (hlength : quotedLength quote.toUInt8 (bytes (taken ++ cs)) =
      quotedLength quote.toUInt8 (bytes cs) + byteLength taken)
    (hdepth : CssWorkbench.braceDepth (.quoted quote) depth (taken ++ cs) =
      CssWorkbench.braceDepth (.quoted quote) depth cs) : StringEnds quote depth (taken ++ cs) := by
  rcases h with ⟨inner, c, rest, rfl, hc, hinner, hrest⟩ | ⟨hle, hrest⟩
  · refine .inl ⟨taken ++ inner, c, rest, by simp, hc, ?_, hdepth.trans hrest⟩
    rw [hlength, hinner, byteLength_append, Nat.add_comm]
  · refine .inr ⟨?_, hdepth.trans hrest⟩
    rw [hlength, byteLength_append]
    omega

/-- Every string that is open ends in the text or not at all. -/
theorem stringEnds (hquote : quote = '"' ∨ quote = '\'') (depth : Nat) (cs : List Char) :
    StringEnds quote depth cs := by
  have hascii : quote.toNat < 0x80 := by rcases hquote with rfl | rfl <;> decide
  have hbackslash : '\\' ≠ quote := by rcases hquote with rfl | rfl <;> decide
  induction hn : cs.length using Nat.strongRecOn generalizing cs with
  | ind n ih =>
    cases cs with
    | nil => exact .inr ⟨Nat.zero_le _, rfl⟩
    | cons c cs =>
      by_cases hend : (c = quote || c = '\n') = true
      · have hends : c = quote ∨ c = '\n' := by simpa using hend
        have hc : c.utf8Size = 1 := by
          rcases hends with rfl | rfl
          · exact utf8Size_of_lt hascii
          · rfl
        refine .inl ⟨[], c, cs, rfl, hc, quotedLength_end hascii hends cs, ?_⟩
        rw [CssWorkbench.braceDepth.eq_def]
        exact if_pos hend
      · have hends : c ≠ quote ∧ c ≠ '\n' := by simpa using hend
        by_cases hescape : c = '\\'
        · subst hescape
          cases cs with
          | nil =>
            refine .inr ⟨?_, ?_⟩
            · rcases hquote with rfl | rfl <;> decide
            · rw [CssWorkbench.braceDepth.eq_def]
              exact (if_neg hend).trans (if_pos rfl)
          | cons d rest =>
            have hlt : rest.length < n := by
              rw [← hn, List.length_cons, List.length_cons]
              omega
            refine (ih rest.length hlt rest rfl).append ['\\', d] ?_ ?_
            · exact quotedLength_escape hascii hbackslash d rest
            · rw [CssWorkbench.braceDepth.eq_def]
              exact (if_neg hend).trans (if_pos rfl)
        · refine (ih cs.length (by simp [← hn]) cs rfl).append [c] ?_ ?_
          · exact quotedLength_pass hascii hends.1 hends.2 hescape cs
          · rw [CssWorkbench.braceDepth.eq_def]
            exact (if_neg hend).trans (if_neg hescape)

/-! ## Braces -/

variable {text : List Char}

/-- At the end of the text the count is what it was. -/
theorem bracesFrom_nil (h : (bytes text).drop offset = []) (depth : Nat) :
    bracesFrom text offset depth = some depth := by
  rw [bracesFrom]
  split
  · rfl
  · rename_i left
    rw [h] at left
    cases left

/-- One byte leads on from offset to offset, or one string or comment does. -/
theorem bracesFrom_cons (h : (bytes text).drop offset = b :: bs) (depth : Nat) :
    bracesFrom text offset depth =
      if b = '/'.toUInt8 && bs.head? = some '*'.toUInt8 then
        (dropBytes (offset + 2) text).bind fun inner =>
          match closer? inner with
          | some stop => bracesFrom text (offset + 2 + stop + 2) depth
          | none => some depth
      else if b = '"'.toUInt8 || b = '\''.toUInt8 then
        bracesFrom text (offset + 1 + quotedLength b bs + 1) depth
      else if b = '\x7b'.toUInt8 then bracesFrom text (offset + 1) (depth + 1)
      else if b = '\x7d'.toUInt8 then bracesFrom text (offset + 1) (depth - 1)
      else bracesFrom text (offset + 1) depth := by
  rw [bracesFrom]
  split
  · rename_i left
    rw [h] at left
    cases left
  · rename_i left
    rw [h] at left
    obtain ⟨rfl, rfl⟩ := List.cons.inj left
    rfl

/-- Bytes that open and close nothing are passed over. -/
theorem bracesFrom_append (h : (bytes text).drop offset = bs ++ rest) (depth : Nat)
    (hbs : ∀ b ∈ bs, ∀ d ∈ ['/', '"', '\'', '\x7b', '\x7d'], b ≠ d.toUInt8) :
    bracesFrom text offset depth = bracesFrom text (offset + bs.length) depth := by
  induction bs generalizing offset with
  | nil => rfl
  | cons b bs ih =>
    obtain ⟨hb, hrest⟩ := List.forall_mem_cons.mp hbs
    simp only [List.forall_mem_cons] at hb
    obtain ⟨hslash, hquote, hapostrophe, hopen, hclose, -⟩ := hb
    have hstep : (bytes text).drop (offset + 1) = bs ++ rest := by
      rw [← List.drop_drop, h]
      rfl
    rw [bracesFrom_cons h]
    simp only [hslash, hquote, hapostrophe, hopen, hclose, decide_false, Bool.false_and,
      Bool.or_false, Bool.false_eq_true, if_false]
    rw [ih hstep hrest, List.length_cons, Nat.add_assoc, Nat.add_comm 1]

/-- Behind each of the first characters of a text the count goes on as it should. -/
def GoesOn (front cs : List Char) : Prop :=
  ∀ taken rest, cs = taken ++ rest → taken ≠ [] → ∀ depth,
    bracesFrom (front ++ cs) (byteLength front + byteLength taken) depth =
      some (CssWorkbench.braceDepth .plain depth rest)

/-- An ASCII character is found by its byte behind a front. -/
theorem drop_bytes_ascii (hc : c.toNat < 0x80) (front cs : List Char) :
    (bytes (front ++ c :: cs)).drop (byteLength front) = c.toUInt8 :: bytes cs := by
  rw [drop_bytes_append, bytes_cons, utf8EncodeChar_of_lt hc]
  rfl

/-- In front of a comment the text is sliced behind two ASCII characters. -/
theorem GoesOn.comment {front inner : List Char} (h : GoesOn front ('/' :: '*' :: inner))
    (depth : Nat) : bracesFrom (front ++ '/' :: '*' :: inner) (byteLength front) depth =
      some (CssWorkbench.braceDepth .plain depth ('/' :: '*' :: inner)) := by
  have hslice : dropBytes (byteLength front + 2) (front ++ '/' :: '*' :: inner) = some inner := by
    have hdrop := dropBytes_byteLength_append (front ++ ['/', '*']) inner
    rwa [byteLength_append, List.append_assoc] at hdrop
  have hopens : ('/'.toUInt8 = '/'.toUInt8 &&
      (bytes ('*' :: inner)).head? = some '*'.toUInt8) = true := by
    have hstar : (bytes ('*' :: inner)).head? = some '*'.toUInt8 :=
      (head?_bytes_eq_some_iff (by decide)).mpr rfl
    simp [hstar]
  have hdepth : CssWorkbench.braceDepth .plain depth ('/' :: '*' :: inner) =
      CssWorkbench.braceDepth .comment depth inner := rfl
  have hends := braceDepth_comment depth inner
  rw [bracesFrom_cons (drop_bytes_ascii (by decide) front ('*' :: inner)), if_pos hopens, hslice,
    Option.bind_some, hdepth]
  split
  · rename_i stop hfound
    rw [hfound] at hends
    obtain ⟨body, rest, rfl, rfl, hclosed⟩ := hends
    have hgoes := h ('/' :: '*' :: (body ++ ['*', '/'])) rest (by simp) (by simp) depth
    have hplace : byteLength front + byteLength ('/' :: '*' :: (body ++ ['*', '/'])) =
        byteLength front + 2 + byteLength body + 2 := by
      have hslash : '/'.utf8Size = 1 := rfl
      have hstar : '*'.utf8Size = 1 := rfl
      simp only [byteLength_cons, byteLength_append, byteLength_nil, hslash, hstar]
      omega
    rw [hclosed, ← hgoes, hplace]
  · rename_i hnone
    rw [hnone] at hends
    rw [hends]

/-- Behind a string the count goes on between characters, or the text is at its end. -/
theorem GoesOn.string {front : List Char} (h : GoesOn front (quote :: cs))
    (hquote : quote = '"' ∨ quote = '\'') (depth : Nat) :
    bracesFrom (front ++ quote :: cs) (byteLength front) depth =
      some (CssWorkbench.braceDepth .plain depth (quote :: cs)) := by
  have hascii : quote.toNat < 0x80 := by rcases hquote with rfl | rfl <;> decide
  have hsize : quote.utf8Size = 1 := utf8Size_of_lt hascii
  have hdepth : CssWorkbench.braceDepth .plain depth (quote :: cs) =
      CssWorkbench.braceDepth (.quoted quote) depth cs := by
    rw [CssWorkbench.braceDepth.eq_def]
    rcases hquote with rfl | rfl <;> rfl
  have hstep : bracesFrom (front ++ quote :: cs) (byteLength front) depth =
      bracesFrom (front ++ quote :: cs)
        (byteLength front + 1 + quotedLength quote.toUInt8 (bytes cs) + 1) depth := by
    rw [bracesFrom_cons (drop_bytes_ascii hascii front cs)]
    rcases hquote with rfl | rfl <;> rfl
  rw [hstep, hdepth]
  rcases stringEnds hquote depth cs with ⟨inner, c, rest, rfl, hc, hlength, hends⟩ | ⟨hle, hends⟩
  · have hgoes := h (quote :: (inner ++ [c])) rest (by simp) (by simp) depth
    have hplace : byteLength front + byteLength (quote :: (inner ++ [c])) =
        byteLength front + 1 + byteLength inner + 1 := by
      simp only [byteLength_cons, byteLength_append, byteLength_nil, hsize, hc]
      omega
    rw [hends, ← hgoes, hplace, hlength]
  · have hend : (bytes (front ++ quote :: cs)).drop
        (byteLength front + 1 + quotedLength quote.toUInt8 (bytes cs) + 1) = [] := by
      refine List.drop_eq_nil_of_le ?_
      rw [length_bytes, byteLength_append, byteLength_cons, hsize]
      omega
    rw [bracesFrom_nil hend, hends]

/-- A character that opens no comment and no string is one step, whatever its bytes. -/
theorem GoesOn.step {front : List Char} (h : GoesOn front (c :: cs))
    (hcomment : ¬ (c = '/' && cs.head? = some '*') = true)
    (hstring : ¬ (c = '"' || c = '\'') = true) (depth : Nat) :
    bracesFrom (front ++ c :: cs) (byteLength front) depth =
      some (CssWorkbench.braceDepth .plain depth (c :: cs)) := by
  have hgoes := h [c] cs rfl (List.cons_ne_nil _ _)
  simp only [byteLength_cons, byteLength_nil, Nat.add_zero] at hgoes
  have hdepth : CssWorkbench.braceDepth .plain depth (c :: cs) =
      if c = '\x7b' then CssWorkbench.braceDepth .plain (depth + 1) cs
      else if c = '\x7d' then CssWorkbench.braceDepth .plain (depth - 1) cs
      else CssWorkbench.braceDepth .plain depth cs := by
    rw [CssWorkbench.braceDepth.eq_def]
    exact (if_neg hcomment).trans (if_neg hstring)
  by_cases hascii : c.toNat < 0x80
  · have hbyte : c.toUInt8 ∈ String.utf8EncodeChar c := by
      rw [utf8EncodeChar_of_lt hascii]
      exact List.mem_singleton_self _
    have hsame : ∀ d : Char, d.toNat < 0x80 → (c.toUInt8 = d.toUInt8 ↔ c = d) :=
      fun d hd => eq_toUInt8_iff hd hbyte
    rw [utf8Size_of_lt hascii] at hgoes
    rw [bracesFrom_cons (drop_bytes_ascii hascii front cs), hdepth]
    simp only [hsame '/' (by decide), hsame '"' (by decide), hsame '\'' (by decide),
      hsame '\x7b' (by decide), hsame '\x7d' (by decide),
      head?_bytes_eq_some_iff (show '*'.toNat < 0x80 by decide)]
    rw [if_neg hcomment, if_neg hstring]
    split
    · exact hgoes _
    · split
      · exact hgoes _
      · exact hgoes _
  · have hlarge := @le_of_mem_utf8EncodeChar c
    have hother : ∀ d : Char, d.toNat < 0x80 → c ≠ d := fun d hd heq => hascii (heq ▸ hd)
    have hdrop := drop_bytes_append front (c :: cs)
    rw [bytes_cons] at hdrop
    rw [bracesFrom_append hdrop depth, String.length_utf8EncodeChar, hgoes, hdepth,
      if_neg (hother _ (by decide)), if_neg (hother _ (by decide))]
    intro b hb d hd
    have hascii' : d.toNat < 0x80 := by
      simp only [List.mem_cons, List.not_mem_nil, or_false] at hd
      rcases hd with rfl | rfl | rfl | rfl | rfl <;> decide
    exact ne_toUInt8_of_le hascii' (hlarge (Nat.le_of_not_lt hascii) hb)

/-- Every slice succeeds, and the braces that are left open are those that the text leaves open. -/
theorem bracesFrom_eq (front cs : List Char) (depth : Nat) :
    bracesFrom (front ++ cs) (byteLength front) depth =
      some (CssWorkbench.braceDepth .plain depth cs) := by
  induction hn : cs.length using Nat.strongRecOn generalizing front cs depth with
  | ind n ih =>
    cases cs with
    | nil => exact bracesFrom_nil (drop_bytes_append front []) depth
    | cons c cs =>
      have hgoes : GoesOn front (c :: cs) := by
        intro taken rest htaken hne depth
        have hlength := congrArg List.length htaken
        have hpos := List.length_pos_iff.mpr hne
        rw [List.length_append] at hlength
        rw [htaken, ← List.append_assoc, ← byteLength_append]
        exact ih rest.length (by omega) (front ++ taken) rest depth rfl
      by_cases hcomment : (c = '/' && cs.head? = some '*') = true
      · simp only [Bool.and_eq_true, decide_eq_true_eq] at hcomment
        obtain ⟨rfl, hnext⟩ := hcomment
        obtain ⟨inner, rfl⟩ := List.head?_eq_some_iff.mp hnext
        exact hgoes.comment depth
      · by_cases hstring : (c = '"' || c = '\'') = true
        · exact hgoes.string (by simpa using hstring) depth
        · exact hgoes.step hcomment hstring depth

/-- The braces are counted the same by offsets as by characters. -/
theorem braceDepth_eq (text : List Char) :
    braceDepth text = some (CssWorkbench.braceDepth .plain 0 text) :=
  bracesFrom_eq [] text 0

end Sliced

end CssWorkbench
