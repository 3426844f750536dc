import CssWorkbench.Proofs.Text.Bytes
import CssWorkbench.Proofs.Token.Coverage
import CssWorkbench.Token.ByteScanner

/-!
# Classes of bytes and of characters

Every byte of a character is in the same classes, and they are those of the character. So a reader
that looks at single bytes sees what one over the characters sees, wherever it stands between two
characters; inside of one it sees that the class goes on.
-/

namespace CssWorkbench

namespace ByteScanner

open Text (bytes byteLength slice?)

/-! ## Classes -/

/-- A class of bytes agrees with a class of characters: all bytes of a character are in the one when
the character is in the other. -/
def Tells (q : UInt8 → Bool) (p : Char → Bool) : Prop :=
  ∀ c, ∀ b ∈ String.utf8EncodeChar c, q b = p c

namespace Tells

variable {q q' : UInt8 → Bool} {p p' : Char → Bool}

/-- Classes that agree still do when each is joined with another. -/
theorem or (h : Tells q p) (h' : Tells q' p') :
    Tells (fun b => q b || q' b) fun c => p c || p' c :=
  fun c b hb => congrArg₂ Bool.or (h c b hb) (h' c b hb)

/-- What two classes have in common agrees when they do. -/
theorem and (h : Tells q p) (h' : Tells q' p') :
    Tells (fun b => q b && q' b) fun c => p c && p' c :=
  fun c b hb => congrArg₂ Bool.and (h c b hb) (h' c b hb)

/-- The byte of an ASCII character is that of no other character. -/
theorem eq {d : Char} (hd : d.toNat < 0x80) : Tells (· = d.toUInt8) (· = d) :=
  fun _ _ hb => decide_eq_decide.mpr (Text.eq_toUInt8_iff hd hb)

/-- The bytes other than that of an ASCII character. -/
theorem ne {d : Char} (hd : d.toNat < 0x80) : Tells (· ≠ d.toUInt8) (· ≠ d) :=
  fun _ _ hb => decide_eq_decide.mpr (not_congr (Text.eq_toUInt8_iff hd hb))

/-- The bytes of a range of ASCII characters. -/
theorem range {low high : Char} (hlow : low.toNat < 0x80) (hhigh : high.toNat < 0x80) :
    Tells (fun b => low.toUInt8 ≤ b && b ≤ high.toUInt8) fun c => low ≤ c && c ≤ high := by
  intro c b hb
  have hnat : ∀ d : Char, d.toNat < 0x80 → d.toUInt8.toNat = d.toNat := fun d hd =>
    (UInt8.toNat_ofNat' (n := d.toNat)).trans (Nat.mod_eq_of_lt (by omega))
  have hle : ∀ d e : Char, d ≤ e ↔ d.toNat ≤ e.toNat := fun _ _ => UInt32.le_iff_toNat_le
  simp only [UInt8.le_iff_toNat_le, hle, hnat low hlow, hnat high hhigh]
  by_cases hc : c.toNat < 0x80
  · rw [Text.utf8EncodeChar_of_lt hc, List.mem_singleton] at hb
    rw [hb, UInt8.toNat_ofNat', Nat.mod_eq_of_lt (by omega)]
  · have hlarge := Text.le_of_mem_utf8EncodeChar (Nat.le_of_not_lt hc) hb
    rw [decide_eq_false (show ¬b.toNat ≤ high.toNat by omega),
      decide_eq_false (show ¬c.toNat ≤ high.toNat by omega), Bool.and_false, Bool.and_false]

/-- The bytes of the characters outside ASCII. -/
theorem large : Tells (fun b => 0x80 ≤ b) fun c => 0x80 ≤ c.toNat := by
  intro c b hb
  rw [decide_eq_decide, UInt8.le_iff_toNat_le]
  by_cases hc : c.toNat < 0x80
  · rw [Text.utf8EncodeChar_of_lt hc, List.mem_singleton] at hb
    rw [hb, UInt8.toNat_ofNat', Nat.mod_eq_of_lt (by omega)]
    rfl
  · have hlarge := Text.le_of_mem_utf8EncodeChar (Nat.le_of_not_lt hc) hb
    exact iff_of_true hlarge (Nat.le_of_not_lt hc)

end Tells

/-- The blanks are told by their first bytes. -/
theorem tells_isBlankByte : Tells isBlankByte Text.isAsciiBlank :=
  ((((Tells.eq (by decide)).or (.eq (by decide))).or (.eq (by decide))).or (.eq (by decide))).or
    (.eq (by decide))

/-- The digits are told by their first bytes. -/
theorem tells_isDigitByte : Tells isDigitByte Char.isDigit :=
  Tells.range (by decide) (by decide)

/-- The hex digits are told by their first bytes. -/
theorem tells_isHexByte : Tells isHexByte isHexDigit :=
  (tells_isDigitByte.or (.range (by decide) (by decide))).or (.range (by decide) (by decide))

/-- The capital letters are told by their first bytes. -/
theorem tells_upper : Tells (fun b => 'A'.toUInt8 ≤ b && b ≤ 'Z'.toUInt8) Char.isUpper :=
  fun c b hb => (Tells.range (by decide) (by decide) c b hb).trans (Bool.decide_and ..).symm

/-- The small letters are told by their first bytes. -/
theorem tells_lower : Tells (fun b => 'a'.toUInt8 ≤ b && b ≤ 'z'.toUInt8) Char.isLower :=
  Tells.range (by decide) (by decide)

/-- The characters that may start a name are told by their first bytes. -/
theorem tells_isNameStartByte : Tells isNameStartByte isNameStart :=
  ((tells_upper.or tells_lower).or (.eq (by decide))).or .large

/-- The characters of names are told by their first bytes. -/
theorem tells_isNameByte : Tells isNameByte isNameChar :=
  (tells_isNameStartByte.or tells_isDigitByte).or (.eq (by decide))

/-- The line breaks are told by their first bytes. -/
theorem tells_isLineBreakByte : Tells isLineBreakByte isLineBreak :=
  ((Tells.eq (by decide)).or (.eq (by decide))).or (.eq (by decide))

/-- The characters that break a URL are told by their first bytes. -/
theorem tells_breaksUrlByte : Tells breaksUrlByte breaksUrl :=
  (((Tells.eq (by decide)).or (.eq (by decide))).or (.eq (by decide))).or (.eq (by decide))

/-- The length of a character by the number of its first byte. -/
theorem utf8Length_ofNat {n : Nat} (hn : n < 256) : utf8Length (UInt8.ofNat n) =
    if n < 0xc0 then 1 else if n < 0xe0 then 2 else if n < 0xf0 then 3 else 4 := by
  simp only [utf8Length, UInt8.lt_iff_toNat_lt, UInt8.toNat_ofNat', Nat.mod_eq_of_lt hn]
  rfl

/-- The first byte says how long a character is. -/
theorem utf8Length_eq {b : UInt8} {c : Char} {bs : List UInt8}
    (h : String.utf8EncodeChar c = b :: bs) : utf8Length b = c.utf8Size := by
  rw [← String.length_utf8EncodeChar]
  unfold String.utf8EncodeChar at h ⊢
  dsimp only at h ⊢
  split at h
  · obtain ⟨rfl, -⟩ := List.cons.inj h
    rw [utf8Length_ofNat (by omega), if_pos (by omega), if_pos ‹_›]
    rfl
  split at h
  · obtain ⟨rfl, -⟩ := List.cons.inj h
    rw [utf8Length_ofNat (by omega), if_neg (by omega), if_pos (by omega), if_neg ‹_›, if_pos ‹_›]
    rfl
  split at h
  · obtain ⟨rfl, -⟩ := List.cons.inj h
    rw [utf8Length_ofNat (by omega), if_neg (by omega), if_neg (by omega), if_pos (by omega),
      if_neg ‹_›, if_neg ‹_›, if_pos ‹_›]
    rfl
  · obtain ⟨rfl, -⟩ := List.cons.inj h
    rw [utf8Length_ofNat (by omega), if_neg (by omega), if_neg (by omega), if_neg (by omega),
      if_neg ‹_›, if_neg ‹_›, if_neg ‹_›]
    rfl

/-! ## Places of a source -/

/-- The text `rest` is what stands from an offset of the source on. -/
def At (source : List Char) (pos : Nat) (rest : List Char) : Prop :=
  ∃ front, source = front ++ rest ∧ pos = byteLength front

variable {source rest part cs : List Char} {c d : Char} {pos : Nat} {b : UInt8}
  {q : UInt8 → Bool} {p : Char → Bool}

/-- A source stands at its start. -/
theorem at_zero (source : List Char) : At source 0 source := ⟨[], rfl, rfl⟩

namespace At

/-- Behind a part stands what follows it. -/
theorem append (h : At source pos (part ++ rest)) : At source (pos + byteLength part) rest := by
  obtain ⟨front, rfl, rfl⟩ := h
  exact ⟨front ++ part, (List.append_assoc ..).symm, (Text.byteLength_append ..).symm⟩

/-- Behind a character stands what follows it. -/
theorem tail (h : At source pos (c :: cs)) : At source (pos + c.utf8Size) cs :=
  append (show At source pos ([c] ++ cs) from h)

/-- An ASCII character takes one byte. -/
theorem next (hc : c.toNat < 0x80) (h : At source pos (c :: cs)) : At source (pos + 1) cs := by
  have htail := h.tail
  rwa [Text.utf8Size_of_lt hc] at htail

/-- A part is cut out between its two ends. -/
theorem slice?_eq (h : At source pos (part ++ rest)) :
    slice? pos (pos + byteLength part) source = some part := by
  obtain ⟨front, rfl, rfl⟩ := h
  exact Text.slice?_byteLength_append ..

/-- The bytes from a place on are those of the text that stands there. -/
theorem drop_bytes (h : At source pos rest) : (bytes source).drop pos = bytes rest := by
  obtain ⟨front, rfl, rfl⟩ := h
  rw [Text.bytes_append, ← Text.length_bytes, List.drop_left]

/-- From a place the source goes on for as long as the text there is. -/
theorem length_eq (h : At source pos rest) : (bytes source).length = pos + byteLength rest := by
  obtain ⟨front, rfl, rfl⟩ := h
  rw [Text.length_bytes, Text.byteLength_append]

/-- No place is out of range. -/
theorem le_length (h : At source pos rest) : pos ≤ (bytes source).length :=
  h.length_eq ▸ Nat.le_add_right ..

/-- At a character the source is not at its end. -/
theorem lt_length (h : At source pos (c :: cs)) : pos < (bytes source).length := by
  rw [h.length_eq, Text.byteLength_cons, ← Nat.add_assoc]
  exact Nat.lt_add_right _ (Nat.lt_add_of_pos_right c.utf8Size_pos)

/-- A byte behind a place is one of the text that stands there. -/
theorem byte?_add (h : At source pos rest) (i : Nat) :
    byte? source (pos + i) = (bytes rest)[i]? := by
  rw [byte?, ← h.drop_bytes, List.getElem?_drop]

/-- At the end there is no byte. -/
theorem byte?_nil (h : At source pos []) : byte? source pos = none :=
  h.byte?_add 0

/-- The byte at a character is its first one, which says how long it is. -/
theorem exists_byte (h : At source pos (c :: cs)) : ∃ b, byte? source pos = some b ∧
    b ∈ String.utf8EncodeChar c ∧ utf8Length b = c.utf8Size := by
  obtain ⟨b, bs, hbs⟩ := List.exists_cons_of_ne_nil (@String.utf8EncodeChar_ne_nil c)
  refine ⟨b, ?_, hbs ▸ List.mem_cons_self, utf8Length_eq hbs⟩
  have hfirst := h.byte?_add 0
  rwa [Text.bytes_cons, hbs] at hfirst

/-- At an ASCII character stands its byte. -/
theorem byte?_eq (hc : c.toNat < 0x80) (h : At source pos (c :: cs)) :
    byte? source pos = some c.toUInt8 := by
  obtain ⟨b, hbyte, hb, -⟩ := h.exists_byte
  rw [hbyte, (Text.eq_toUInt8_iff hc hb).mpr rfl]

/-- Within a character stand its bytes. -/
theorem exists_byte_add (h : At source pos (c :: cs)) {i : Nat} (hi : i < c.utf8Size) :
    ∃ b, byte? source (pos + i) = some b ∧ b ∈ String.utf8EncodeChar c := by
  rw [← String.length_utf8EncodeChar] at hi
  refine ⟨_, ?_, List.getElem_mem hi⟩
  rw [h.byte?_add, Text.bytes_cons, List.getElem?_append_left hi, List.getElem?_eq_getElem hi]

/-- What does not change over any single byte of a character does not change over the character. -/
theorem eq_of_forall_byte {α : Type} {f : Nat → α} (h : At source pos (c :: cs))
    (hstep : ∀ i b, byte? source i = some b → b ∈ String.utf8EncodeChar c → f i = f (i + 1)) :
    f pos = f (pos + c.utf8Size) := by
  have hrun : ∀ n ≤ c.utf8Size, f pos = f (pos + n) := by
    intro n
    induction n with
    | zero => exact fun _ => rfl
    | succ n ih =>
      intro hn
      obtain ⟨b, hbyte, hb⟩ := h.exists_byte_add hn
      exact (ih (Nat.le_of_succ_le hn)).trans (hstep _ b hbyte hb)
  exact hrun _ (Nat.le_refl _)

/-- At a place the class of a byte is that of the character there. -/
theorem classAt_eq (h : At source pos rest) (hq : Tells q p) :
    classAt source q pos = rest.head?.any p := by
  cases rest with
  | nil => rw [classAt, h.byte?_nil]; rfl
  | cons c cs =>
    obtain ⟨b, hbyte, hb, -⟩ := h.exists_byte
    rw [classAt, hbyte]
    exact hq c b hb

/-- At a place the byte of an ASCII character is the character. -/
theorem isAt_eq (h : At source pos rest) (hd : d.toNat < 0x80) :
    isAt source pos d = rest.head?.any (· = d) :=
  h.classAt_eq (.eq hd)

/-- The byte of an ASCII character stands at a place when the text there starts with it. -/
theorem isAt_iff (h : At source pos rest) (hd : d.toNat < 0x80) :
    isAt source pos d = true ↔ rest.head? = some d := by
  rw [h.isAt_eq hd]
  cases rest.head? <;> simp

end At

end ByteScanner

end CssWorkbench
