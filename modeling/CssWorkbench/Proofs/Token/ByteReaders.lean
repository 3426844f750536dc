import CssWorkbench.Proofs.Token.ByteClasses
import CssWorkbench.Proofs.Token.StretchSequel

/-!
# Readers of bytes

From a place between two characters every reader of bytes finds what the reader of characters finds
there. It neither fails nor runs on for ever, and it stops between two characters again, right where
the stretch of the characters ends. The readers that go byte by byte pass over the bytes of a longer
character one at a time; none of these stops them.
-/

namespace CssWorkbench

open Text (bytes byteLength)

/-- What a stretch that starts at an offset is to a reader. -/
def Stretch.reading (s : Stretch) (pos : Nat) : ByteScanner.Reading :=
  ⟨s.value, pos + byteLength s.taken, s.malformed⟩

namespace ByteScanner

variable {source rest part cs : List Char} {c d : Char} {pos run : Nat}

/-- The value of a stretch is that of its reading. -/
@[simp] theorem reading_value (s : Stretch) (pos : Nat) : (s.reading pos).value = s.value := rfl

/-- The reading of a stretch stops behind what the stretch takes. -/
@[simp] theorem reading_stop (s : Stretch) (pos : Nat) :
    (s.reading pos).stop = pos + byteLength s.taken := rfl

/-- A stretch is malformed when its reading is. -/
@[simp] theorem reading_malformed (s : Stretch) (pos : Nat) :
    (s.reading pos).malformed = s.malformed := rfl

/-- Nothing stops where it starts. -/
@[simp] theorem reading_nothing (rest : List Char) (pos : Nat) :
    (Stretch.nothing rest).reading pos = ⟨[], pos, false⟩ := rfl

/-- A stretch behind a part is read behind the bytes of the part. -/
@[simp] theorem reading_after (s : Stretch) (taken value : List Char) (pos : Nat) :
    (s.after taken value).reading pos = (s.reading (pos + byteLength taken)).after value := by
  simp [Stretch.reading, Stretch.after, Reading.after, Nat.add_assoc]

/-- Behind nothing a reading is the same. -/
@[simp] theorem after_nil (r : Reading) : r.after [] = r := rfl

/-- What is read behind something has the value behind that of it. -/
@[simp] theorem mk_after (value first : List Char) (stop : Nat) (malformed : Bool) :
    (Reading.mk value stop malformed).after first = ⟨first ++ value, stop, malformed⟩ := rfl

/-- What is read in front of what is read in front. -/
@[simp] theorem after_after (first second : List Char) (r : Reading) :
    (r.after second).after first = r.after (first ++ second) := by
  simp [Reading.after]

namespace At

/-! ## Looking ahead -/

/-- A text of ASCII characters stands at a place when it opens what stands there. -/
theorem startsWith?_eq (h : At source pos rest) {text : List Char}
    (htext : (text.all fun c => c.toNat < 0x80) = true) :
    startsWith? source pos text = some (text.isPrefixOf rest) := by
  rw [startsWith?, if_pos h.le_length, h.drop_bytes, Option.some_inj]
  clear h
  induction text generalizing rest with
  | nil => rfl
  | cons c text ih =>
    obtain ⟨hhead, htail⟩ := Bool.and_eq_true_iff.mp htext
    have hc : c.toNat < 0x80 := of_decide_eq_true hhead
    rw [Text.bytes_cons, Text.utf8EncodeChar_of_lt hc, List.singleton_append]
    cases rest with
    | nil => rfl
    | cons d rest =>
      obtain ⟨b, bs, hbs⟩ := List.exists_cons_of_ne_nil (@String.utf8EncodeChar_ne_nil d)
      have hb := Text.eq_toUInt8_iff hc (hbs ▸ List.mem_cons_self : b ∈ String.utf8EncodeChar d)
      rw [Text.bytes_cons, hbs, List.cons_append, List.isPrefixOf_cons_cons,
        List.isPrefixOf_cons_cons]
      by_cases hcd : d = c
      · subst hcd
        rw [Text.utf8EncodeChar_of_lt hc] at hbs
        obtain ⟨rfl, rfl⟩ := List.cons.inj hbs
        rw [List.nil_append, beq_self_eq_true, beq_self_eq_true, ih htail]
      · have hbyte : (UInt8.ofNat c.toNat == b) = false :=
          beq_false_of_ne fun heq => hcd (hb.mp heq.symm)
        rw [beq_false_of_ne (Ne.symm hcd), hbyte, Bool.false_and, Bool.false_and]

/-- A text does not stand where the byte is not that of its first character. -/
theorem startsWith?_of_ne {text : List Char} {b : UInt8} (hbyte : byte? source pos = some b)
    (hd : d.toNat < 0x80) (hne : b ≠ d.toUInt8) :
    startsWith? source pos (d :: text) = some false := by
  obtain ⟨hlt, hget⟩ := List.getElem?_eq_some_iff.mp hbyte
  rw [startsWith?, if_pos (Nat.le_of_lt hlt), List.drop_eq_getElem_cons hlt, hget, Text.bytes_cons,
    Text.utf8EncodeChar_of_lt hd, List.singleton_append, List.isPrefixOf_cons_cons]
  have hbeq : (UInt8.ofNat d.toNat == b) = false := beq_false_of_ne (Ne.symm hne)
  rw [hbeq, Bool.false_and]

/-- An ASCII character stands at a place, with something behind it that is seen there. -/
theorem eq_and_next {b : UInt8} {seen holds : Bool} (hd : d.toNat < 0x80)
    (h : At source pos (c :: cs)) (hb : b ∈ String.utf8EncodeChar c)
    (hnext : At source (pos + 1) cs → seen = holds) :
    (b = d.toUInt8 && seen) = (c = d && holds) := by
  by_cases hc : c = d
  · subst hc
    rw [hnext (h.next hd), (Text.eq_toUInt8_iff hd hb).mpr rfl]
    simp
  · have hne : b ≠ d.toUInt8 := mt (Text.eq_toUInt8_iff hd hb).mp hc
    simp [hne, hc]

/-- An escape starts where one starts in the text. -/
theorem startsEscapeAt_eq (h : At source pos rest) :
    startsEscapeAt source pos = startsEscape rest := by
  rw [startsEscapeAt, h.isAt_eq (by decide)]
  cases rest with
  | nil => rfl
  | cons c cs =>
    by_cases hc : c = '\\'
    · subst hc
      rw [(h.next (by decide)).classAt_eq ((Tells.ne (by decide)).and (.ne (by decide)))]
      cases cs with
      | nil => rfl
      | cons d ds => simp [startsEscape]
    · rw [startsEscape_of_ne hc]
      simp [hc]

/-- A name goes on where one does in the text. -/
theorem startsNamePartAt_eq (h : At source pos rest) :
    startsNamePartAt source pos = startsNamePart rest := by
  rw [startsNamePartAt, h.classAt_eq tells_isNameByte, h.startsEscapeAt_eq]
  cases rest <;> rfl

/-- An identifier starts where one starts in the text. -/
theorem startsIdentAt_eq (h : At source pos rest) :
    startsIdentAt source pos = startsIdent rest := by
  rw [startsIdentAt, h.isAt_eq (by decide), h.classAt_eq tells_isNameStartByte,
    h.startsEscapeAt_eq]
  cases rest with
  | nil => rfl
  | cons c cs =>
    by_cases hc : c = '-'
    · subst hc
      have hnext := h.next (by decide)
      rw [hnext.isAt_eq (by decide), hnext.classAt_eq tells_isNameStartByte,
        hnext.startsEscapeAt_eq]
      cases cs <;> rfl
    · rw [startsIdent_of_ne hc]
      simp [hc]

/-- The digits of a number start, with a point in front of them or without, where they do in the
text. -/
theorem startsUnsigned_eq_or (h : At source pos rest) :
    (classAt source isDigitByte pos ||
      (isAt source pos '.' && classAt source isDigitByte (pos + 1))) = startsUnsigned rest := by
  rw [h.isAt_eq (by decide), h.classAt_eq tells_isDigitByte]
  cases rest with
  | nil => rfl
  | cons c cs =>
    by_cases hc : c = '.'
    · subst hc
      rw [(h.next (by decide)).classAt_eq tells_isDigitByte, startsUnsigned_dot]
      rfl
    · rw [startsUnsigned_of_ne hc]
      simp [hc]

/-- As `startsUnsigned_eq_or`, where a point decides which byte is looked at. -/
theorem startsUnsigned_eq_ite (h : At source pos rest) :
    (if isAt source pos '.' then classAt source isDigitByte (pos + 1)
      else classAt source isDigitByte pos) = startsUnsigned rest := by
  by_cases hpoint : isAt source pos '.' = true
  · obtain ⟨behind, rfl⟩ := List.head?_eq_some_iff.mp ((h.isAt_iff (by decide)).mp hpoint)
    rw [if_pos hpoint, (h.next (by decide)).classAt_eq tells_isDigitByte, startsUnsigned_dot]
  · rw [if_neg hpoint, h.classAt_eq tells_isDigitByte]
    cases rest with
    | nil => rfl
    | cons c cs =>
      have hc : c ≠ '.' := fun hc => hpoint ((h.isAt_iff (by decide)).mpr (congrArg some hc))
      rw [startsUnsigned_of_ne hc]
      rfl

/-- A number starts where one starts in the text. -/
theorem startsNumberAt_eq (h : At source pos rest) :
    startsNumberAt source pos = startsNumber rest := by
  rw [startsNumberAt, h.startsUnsigned_eq_ite, h.isAt_eq (by decide), h.isAt_eq (by decide)]
  cases rest with
  | nil => rfl
  | cons c cs =>
    by_cases hc : c = '+' ∨ c = '-'
    · have hnext : At source (pos + 1) cs := h.next (by rcases hc with rfl | rfl <;> decide)
      rw [hnext.startsUnsigned_eq_or]
      simp [startsNumber, hc]
    · simp [startsNumber, hc]

/-! ## Runs of a class -/

/-- A run of a class ends where the characters of the class do. -/
theorem skip_eq {q : UInt8 → Bool} {p : Char → Bool} (hq : Tells q p) (h : At source pos rest) :
    skip source q pos = pos + byteLength (rest.takeWhile p) := by
  induction rest generalizing pos with
  | nil =>
    rw [skip, dif_neg (by simp [h.classAt_eq hq])]
    rfl
  | cons c cs ih =>
    rw [List.takeWhile_cons]
    cases hc : p c with
    | false =>
      rw [skip, dif_neg (by simp [h.classAt_eq hq, hc])]
      rfl
    | true =>
      have hrun : skip source q pos = skip source q (pos + c.utf8Size) := by
        refine h.eq_of_forall_byte fun i b hbyte hb => ?_
        have hclass : classAt source q i = true := by
          rw [classAt, hbyte]
          exact (hq c b hb).trans hc
        rw [skip, dif_pos hclass]
      rw [hrun, ih h.tail]
      simp [Nat.add_assoc]

/-- A run of ASCII characters is bounded by the number of its bytes. -/
theorem skipUpTo_eq {q : UInt8 → Bool} {p : Char → Bool} (hq : Tells q p)
    (hp : ∀ c, p c = true → c.toNat < 0x80) (h : At source pos rest) (limit : Nat) :
    skipUpTo source q limit pos = pos + byteLength (takeUpTo p limit rest).1 := by
  induction limit generalizing pos rest with
  | zero => rfl
  | succ limit ih =>
    have hclass := h.classAt_eq hq
    cases rest with
    | nil =>
      rw [skipUpTo, hclass]
      rfl
    | cons c cs =>
      have hhead : classAt source q pos = p c := hclass
      rw [skipUpTo, hhead, takeUpTo]
      by_cases hc : p c = true
      · rw [if_pos hc, if_pos hc, ih (h.next (hp c hc)), Text.byteLength_cons,
          Text.utf8Size_of_lt (hp c hc), Nat.add_assoc]
      · rw [if_neg hc, if_neg hc]
        rfl

/-! ## Readers -/

/-- A character is read as a whole. -/
theorem character?_eq (h : At source pos (c :: cs)) {b : UInt8} (hb : byte? source pos = some b) :
    character? source b pos = some ⟨[c], pos + c.utf8Size, false⟩ := by
  obtain ⟨b', hbyte, -, hlength⟩ := h.exists_byte
  obtain rfl : b' = b := Option.some.inj (hbyte.symm.trans hb)
  have hslice : Text.slice? pos (pos + c.utf8Size) source = some [c] :=
    slice?_eq (show At source pos ([c] ++ cs) from h)
  rw [character?, hlength, hslice]
  rfl

/-- Every hexadecimal digit is an ASCII character. -/
theorem lt_of_isHexDigit (hc : isHexDigit c = true) : c.toNat < 0x80 := by
  simp only [isHexDigit, Char.isDigit, Bool.or_eq_true, Bool.and_eq_true, decide_eq_true_eq] at hc
  rcases hc with (⟨-, hle⟩ | ⟨-, hle⟩) | ⟨-, hle⟩ <;>
    exact Nat.lt_of_le_of_lt (UInt32.le_iff_toNat_le.mp hle) (by decide)

/-- An escape spells the same. -/
theorem escape?_eq (h : At source pos rest) :
    escape? source pos = some ((escape rest).reading pos) := by
  cases rest with
  | nil =>
    rw [escape?, h.byte?_nil]
    rfl
  | cons c cs =>
    obtain ⟨b, hbyte, hb, -⟩ := h.exists_byte
    rw [escape?, hbyte]
    simp only [tells_isHexByte c b hb, escape]
    split
    · have happend := takeUpTo_append isHexDigit 6 (c :: cs)
      rw [skipUpTo_eq tells_isHexByte (fun _ => lt_of_isHexDigit) h]
      generalize takeUpTo isHexDigit 6 (c :: cs) = run at happend ⊢
      obtain ⟨digits, behind⟩ := run
      rw [← happend] at h
      rw [h.slice?_eq, h.append.classAt_eq tells_isBlankByte]
      cases behind with
      | nil => simp [Stretch.reading]
      | cons e es =>
        by_cases he : Text.isAsciiBlank e = true
        · have hsize : e.utf8Size = 1 := Text.utf8Size_of_lt (Text.lt_of_isAsciiBlank he)
          simp [Stretch.reading, he, hsize, Nat.add_assoc]
        · simp [Stretch.reading, he]
    · rw [h.character?_eq hbyte]
      simp [Stretch.reading]

/-- Only a backslash starts an escape. -/
theorem eq_of_startsEscape (h : startsEscape (c :: cs) = true) : c = '\\' := by
  by_contra hc
  rw [startsEscape_of_ne hc] at h
  cases h

/-- Behind an escape the text goes on. -/
theorem escape_rest (h : At source pos cs) :
    At source (pos + byteLength (escape cs).taken) (escape cs).rest :=
  append (by rwa [escape_append])

/-- The rest of a name spells the same, with what was passed in front of it. -/
theorem name?_eq (h : At source run (part ++ rest)) :
    name? source run (run + byteLength part) =
      some (((name rest).reading (run + byteLength part)).after part) := by
  induction rest using name.induct generalizing run part with
  | case1 =>
    have hclass := h.append.classAt_eq tells_isNameByte
    have hescapes := h.append.startsEscapeAt_eq
    rw [name?, dif_neg (by simp [hclass]), dif_neg (by simp [hescapes, startsEscape]), h.slice?_eq]
    simp [name]
  | case2 c cs hc ih =>
    -- byte by byte, each of them one of a name
    have hrun : name? source run (run + byteLength part) =
        name? source run (run + byteLength part + c.utf8Size) := by
      refine h.append.eq_of_forall_byte fun i b hbyte hb => ?_
      have hname : classAt source isNameByte i = true := by
        rw [classAt, hbyte]
        exact (tells_isNameByte c b hb).trans hc
      rw [name?, dif_pos hname]
    have hpart : At source run ((part ++ [c]) ++ cs) := by simpa using h
    have hrest := ih hpart
    rw [hrun]
    simpa [name, hc, Nat.add_assoc] using hrest
  | case3 c cs hc hescape ih =>
    obtain rfl := eq_of_startsEscape hescape
    have hclass := h.append.classAt_eq tells_isNameByte
    have hescapes := h.append.startsEscapeAt_eq
    have hnext := h.append.next (by decide)
    have hrest := @ih [] _ hnext.escape_rest
    rw [name?, dif_neg (by simpa [hclass] using hc), dif_pos (hescapes.trans hescape), h.slice?_eq,
      hnext.escape?_eq]
    simp only [Text.byteLength_nil, Nat.add_zero, after_nil, Nat.add_assoc] at hrest
    simp [name, hc, hescape, hrest, Text.utf8Size_of_lt (c := '\\') (by decide), Nat.add_assoc]
  | case4 c cs hc hescape =>
    have hclass := h.append.classAt_eq tells_isNameByte
    have hescapes := h.append.startsEscapeAt_eq
    rw [name?, dif_neg (by simpa [hclass] using hc), dif_neg (by simpa [hescapes] using hescape),
      h.slice?_eq]
    simp [name, hc, hescape]

/-- A name spells the same. -/
theorem name?_eq_reading (h : At source pos rest) :
    name? source pos pos = some ((name rest).reading pos) :=
  name?_eq (show At source pos ([] ++ rest) from h)

/-- Only the bytes of a star start the end of a comment. -/
theorem comment?_step (h : At source pos (c :: cs))
    (hend : ∀ ds, c = '*' → cs = '/' :: ds → False) :
    comment? source run pos = comment? source run (pos + c.utf8Size) := by
  by_cases hc : c = '*'
  · subst hc
    have hprefix : ['*', '/'].isPrefixOf ('*' :: cs) = false := by
      cases cs with
      | nil => rfl
      | cons d ds =>
        have hd : '/' ≠ d := fun hd => hend ds rfl (by rw [hd])
        rw [List.isPrefixOf_cons_cons, List.isPrefixOf_cons_cons, beq_false_of_ne hd,
          Bool.false_and, Bool.and_false]
    rw [comment?, if_pos h.lt_length, h.startsWith?_eq (by decide), hprefix]
    rfl
  · refine h.eq_of_forall_byte fun i b hbyte hb => ?_
    have hlt : i < (bytes source).length := (List.getElem?_eq_some_iff.mp hbyte).1
    have hne : b ≠ '*'.toUInt8 := Text.ne_toUInt8 (by decide) hb hc
    rw [comment?, if_pos hlt, startsWith?_of_ne hbyte (by decide) hne]
    rfl

/-- The rest of a comment spells the same, with what was passed in front of it. -/
theorem comment?_eq (h : At source run (part ++ rest)) :
    comment? source run (run + byteLength part) =
      some (((commentTail rest).reading (run + byteLength part)).after part) := by
  induction rest using commentTail.induct generalizing run part with
  | case1 =>
    have hend : ¬run + byteLength part < (bytes source).length := by
      rw [h.append.length_eq]
      exact Nat.lt_irrefl _
    rw [comment?, if_neg hend, h.slice?_eq]
    simp [commentTail]
  | case2 cs =>
    rw [comment?, if_pos h.append.lt_length, h.append.startsWith?_eq (by decide), h.slice?_eq]
    simp [commentTail, Stretch.reading, Text.utf8Size_of_lt (c := '*') (by decide),
      Text.utf8Size_of_lt (c := '/') (by decide)]
  | case3 c cs hend ih =>
    have hpart : At source run ((part ++ [c]) ++ cs) := by simpa using h
    rw [h.append.comment?_step hend, commentTail.eq_3 _ _ hend]
    simpa [Nat.add_assoc] using ih hpart

/-- What is left of a malformed url ends at the same place. -/
theorem badUrl?_eq (h : At source pos rest) :
    badUrl? source pos = some (pos + byteLength (badUrlTail rest).taken) := by
  induction rest using badUrlTail.induct generalizing pos with
  | case1 =>
    rw [badUrl?, h.byte?_nil]
    rfl
  | case2 cs =>
    rw [badUrl?, h.byte?_eq (by decide)]
    rfl
  | case3 c cs ih =>
    have hnext := h.next (by decide)
    obtain ⟨b, hbyte, -, hlength⟩ := hnext.exists_byte
    have hrest : badUrl? source (pos + 1 + utf8Length b) =
        some (pos + 1 + utf8Length b + byteLength (badUrlTail cs).taken) :=
      ih (hlength ▸ hnext.tail)
    rw [badUrl?, h.byte?_eq (by decide), hbyte]
    show badUrl? source (pos + 1 + utf8Length b) = _
    rw [hrest, hlength]
    simp [badUrlTail, Text.utf8Size_of_lt (c := '\\') (by decide), Nat.add_assoc]
  | case4 c cs hclose hescape ih =>
    have hrun : badUrl? source pos = badUrl? source (pos + c.utf8Size) := by
      by_cases hc : c = '\\'
      · subst hc
        obtain rfl : cs = [] := by
          cases cs with
          | nil => rfl
          | cons d ds => exact (hescape d ds rfl rfl).elim
        rw [badUrl?, h.byte?_eq (by decide), (h.next (by decide)).byte?_nil]
        rfl
      · refine h.eq_of_forall_byte fun i b hbyte hb => ?_
        have hparen : b ≠ ')'.toUInt8 := Text.ne_toUInt8 (by decide) hb hclose
        have hslash : b ≠ '\\'.toUInt8 := Text.ne_toUInt8 (by decide) hb hc
        rw [badUrl?, hbyte]
        simp [hparen, hslash]
    rw [hrun, ih h.tail, badUrlTail.eq_4 _ _ hclose hescape]
    simp [Nat.add_assoc]

/-- What is left of a malformed url spells nothing. -/
theorem badUrlTail_reading (rest : List Char) (pos : Nat) :
    (badUrlTail rest).reading pos = ⟨[], pos + byteLength (badUrlTail rest).taken, true⟩ := by
  have hshape : (badUrlTail rest).value = [] ∧ (badUrlTail rest).malformed = true := by
    fun_induction badUrlTail rest <;> simp_all [Stretch.after]
  rw [Stretch.reading, hshape.1, hshape.2]

/-- The end of a url spells the same. -/
theorem urlEnd?_eq (h : At source pos rest) :
    urlEnd? source pos = some ((urlEnd rest).reading pos) := by
  cases rest with
  | nil =>
    rw [urlEnd?, h.byte?_nil]
    rfl
  | cons c cs =>
    by_cases hc : c = ')'
    · subst hc
      rw [urlEnd?, h.byte?_eq (by decide)]
      simp [urlEnd, Stretch.reading, Text.utf8Size_of_lt (c := ')') (by decide)]
    · obtain ⟨b, hbyte, hb, -⟩ := h.exists_byte
      have hparen : b ≠ ')'.toUInt8 := Text.ne_toUInt8 (by decide) hb hc
      rw [urlEnd?, hbyte, urlEnd, if_neg hc, badUrlTail_reading]
      simp [hparen, h.badUrl?_eq]

/-- A url goes on with an escape where one does in the text. -/
theorem escapesUrl_eq (h : At source pos (c :: cs)) {b : UInt8}
    (hb : b ∈ String.utf8EncodeChar c) :
    (b = '\\'.toUInt8 && classAt source (· ≠ '\n'.toUInt8) (pos + 1)) =
      (c = '\\' && cs.head?.any (· ≠ '\n')) :=
  h.eq_and_next (by decide) hb fun hnext => hnext.classAt_eq (.ne (by decide))

/-- The rest of a url spells the same. -/
theorem url?_eq (h : At source pos rest) :
    url? source pos = some ((urlTail rest).reading pos) := by
  induction rest using urlTail.induct generalizing pos with
  | case1 =>
    rw [url?, h.byte?_nil]
    simp [urlTail]
  | case2 cs =>
    rw [url?, h.byte?_eq (by decide)]
    simp [urlTail, Stretch.reading, Text.utf8Size_of_lt (c := ')') (by decide)]
  | case3 c cs hclose hescape ih =>
    obtain rfl : c = '\\' := of_decide_eq_true (Bool.and_eq_true_iff.mp hescape).1
    have hnext := h.next (by decide)
    obtain ⟨b, hbyte, hb, -⟩ := h.exists_byte
    have hrest := ih hnext.escape_rest
    have hparen : b ≠ ')'.toUInt8 := Text.ne_toUInt8 (by decide) hb hclose
    rw [Nat.add_assoc] at hrest
    rw [url?, hbyte]
    dsimp only
    rw [if_neg hparen, h.escapesUrl_eq hb, if_pos hescape, hnext.escape?_eq, urlTail,
      if_neg hclose, if_pos hescape]
    simp [hrest, Text.utf8Size_of_lt (c := '\\') (by decide), Nat.add_assoc]
  | case4 c cs hclose hescape hblank =>
    obtain ⟨b, hbyte, hb, -⟩ := h.exists_byte
    have hparen : b ≠ ')'.toUInt8 := Text.ne_toUInt8 (by decide) hb hclose
    have hbehind : At source (pos + byteLength ((c :: cs).takeWhile Text.isAsciiBlank))
        ((c :: cs).dropWhile Text.isAsciiBlank) :=
      append (by rwa [List.takeWhile_append_dropWhile])
    rw [url?, hbyte]
    dsimp only
    rw [if_neg hparen, h.escapesUrl_eq hb, if_neg hescape, tells_isBlankByte c b hb, if_pos hblank,
      h.skip_eq tells_isBlankByte, urlTail, if_neg hclose, if_neg hescape, if_pos hblank,
      reading_after, after_nil]
    exact hbehind.urlEnd?_eq
  | case5 c cs hclose hescape hblank hbreaks =>
    obtain ⟨b, hbyte, hb, -⟩ := h.exists_byte
    have hparen : b ≠ ')'.toUInt8 := Text.ne_toUInt8 (by decide) hb hclose
    rw [url?, hbyte]
    dsimp only
    rw [if_neg hparen, h.escapesUrl_eq hb, if_neg hescape, tells_isBlankByte c b hb, if_neg hblank,
      tells_breaksUrlByte c b hb, if_pos hbreaks, h.badUrl?_eq, urlTail, if_neg hclose,
      if_neg hescape, if_neg hblank, if_pos hbreaks, badUrlTail_reading]
    rfl
  | case6 c cs hclose hescape hblank hbreaks ih =>
    obtain ⟨b, hbyte, hb, -⟩ := h.exists_byte
    have hparen : b ≠ ')'.toUInt8 := Text.ne_toUInt8 (by decide) hb hclose
    rw [url?, hbyte]
    dsimp only
    rw [if_neg hparen, h.escapesUrl_eq hb, if_neg hescape, tells_isBlankByte c b hb, if_neg hblank,
      tells_breaksUrlByte c b hb, if_neg hbreaks, h.character?_eq hbyte, urlTail, if_neg hclose,
      if_neg hescape, if_neg hblank, if_neg hbreaks]
    simp [ih h.tail]

/-- Every line break is an ASCII character. -/
theorem lt_of_isLineBreak (hc : isLineBreak c = true) : c.toNat < 0x80 := by
  simp only [isLineBreak, Bool.or_eq_true, decide_eq_true_eq] at hc
  rcases hc with (rfl | rfl) | rfl <;> decide

/-- The two bytes of a line break stand only where its two characters do. -/
theorem crlfAt_eq_false {b : UInt8} (hcrlf : ∀ es, c = '\r' → cs = '\n' :: es → False)
    (h : At source pos (c :: cs)) (hb : b ∈ String.utf8EncodeChar c) :
    (b = '\r'.toUInt8 && isAt source (pos + 1) '\n') = false := by
  rw [h.eq_and_next (by decide) hb fun hnext => hnext.isAt_eq (by decide)]
  cases cs with
  | nil => simp
  | cons d ds =>
    simp only [List.head?_cons, Option.any_some, Bool.and_eq_false_iff, decide_eq_false_iff_not]
    by_cases hc : c = '\r'
    · exact .inr fun hd => hcrlf ds hc (by rw [hd])
    · exact .inl hc

/-- The rest of a string spells the same. -/
theorem string?_eq {quote : Char} (hquote : quote.toNat < 0x80) (h : At source pos rest) :
    string? source quote.toUInt8 pos = some ((stringTail quote rest).reading pos) := by
  induction rest using stringTail.induct quote generalizing pos with
  | case1 =>
    rw [string?, h.byte?_nil]
    simp [stringTail]
  | case2 cs =>
    rw [string?, h.byte?_eq hquote, stringTail_quote]
    simp [Stretch.reading, Text.utf8Size_of_lt hquote]
  | case3 c cs hc hbreak =>
    obtain ⟨b, hbyte, hb, -⟩ := h.exists_byte
    have hne : b ≠ quote.toUInt8 := Text.ne_toUInt8 hquote hb hc
    rw [string?, hbyte, stringTail_lineBreak hc hbreak]
    dsimp only
    rw [if_neg hne, tells_isLineBreakByte c b hb, if_pos hbreak]
    rfl
  | case4 hslash =>
    have hnext := h.next (by decide)
    have hne : '\\'.toUInt8 ≠ quote.toUInt8 := Text.ne_toUInt8 hquote (by decide) hslash
    rw [string?, h.byte?_eq (by decide), hnext.byte?_nil, stringTail_slash_nil hslash]
    dsimp only
    rw [if_neg hne, if_neg (by decide), if_pos rfl, string?, hnext.byte?_nil]
    rfl
  | case5 cs hslash _ ih =>
    have hnext := h.next (by decide)
    have hbehind := hnext.next (by decide)
    have hne : '\\'.toUInt8 ≠ quote.toUInt8 := Text.ne_toUInt8 hquote (by decide) hslash
    have hpair : isAt source (pos + 2) '\n' = true := hbehind.isAt_eq (by decide)
    have hrest := ih (hbehind.next (by decide))
    rw [string?, h.byte?_eq (by decide), hnext.byte?_eq (by decide), stringTail_slash_crlf hslash,
      reading_after, after_nil]
    dsimp only
    rw [if_neg hne, if_neg (by decide), if_pos rfl, hpair]
    exact hrest
  | case6 d ds hcrlf hbreak hslash _ ih =>
    have hnext := h.next (by decide)
    obtain ⟨b, hbyte, hb, -⟩ := hnext.exists_byte
    have hne : '\\'.toUInt8 ≠ quote.toUInt8 := Text.ne_toUInt8 hquote (by decide) hslash
    have hpair : (b = '\r'.toUInt8 && isAt source (pos + 2) '\n') = false :=
      hnext.crlfAt_eq_false hcrlf hb
    have hascii := lt_of_isLineBreak hbreak
    have hrest := ih (hnext.next hascii)
    rw [string?, h.byte?_eq (by decide), hbyte, stringTail_slash_lineBreak hslash hbreak hcrlf,
      reading_after, after_nil]
    dsimp only
    rw [if_neg hne, if_neg (by decide), if_pos rfl, hpair, if_neg Bool.false_ne_true,
      tells_isLineBreakByte d b hb, if_pos hbreak]
    simpa [Text.utf8Size_of_lt hascii, Text.utf8Size_of_lt (c := '\\') (by decide)] using hrest
  | case7 d ds hcrlf hbreak hslash _ ih =>
    have hnext := h.next (by decide)
    obtain ⟨b, hbyte, hb, -⟩ := hnext.exists_byte
    have hne : '\\'.toUInt8 ≠ quote.toUInt8 := Text.ne_toUInt8 hquote (by decide) hslash
    have hpair : (b = '\r'.toUInt8 && isAt source (pos + 2) '\n') = false :=
      hnext.crlfAt_eq_false hcrlf hb
    have hrest := ih hnext.escape_rest
    rw [Nat.add_assoc] at hrest
    rw [string?, h.byte?_eq (by decide), hbyte, stringTail_slash_escape hslash hbreak]
    dsimp only
    rw [if_neg hne, if_neg (by decide), if_pos rfl, hpair, if_neg Bool.false_ne_true,
      tells_isLineBreakByte d b hb, if_neg hbreak, hnext.escape?_eq]
    simp [hrest, Text.utf8Size_of_lt (c := '\\') (by decide), Nat.add_assoc]
  | case8 c cs hc hbreak hslash ih =>
    obtain ⟨b, hbyte, hb, -⟩ := h.exists_byte
    have hne : b ≠ quote.toUInt8 := Text.ne_toUInt8 hquote hb hc
    have hplain : b ≠ '\\'.toUInt8 := Text.ne_toUInt8 (by decide) hb hslash
    rw [string?, hbyte, stringTail_plain hc hbreak hslash]
    dsimp only
    rw [if_neg hne, tells_isLineBreakByte c b hb, if_neg hbreak, if_neg hplain,
      h.character?_eq hbyte]
    simp [ih h.tail]

end At

end ByteScanner

end CssWorkbench
