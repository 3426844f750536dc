import Mathlib.Order.Bounds.Basic
import CssWorkbench.Analysis.Completion

/-!
# Bytes and characters

An ASCII character is one byte, and no byte of a longer character is taken for one: whoever looks at
single bytes can tell the ASCII characters of a text from all that stands between them. So what is
found by a search over the bytes is found by one over the characters.
-/

namespace CssWorkbench

/-! ## Lists of bytes -/

/-- The loop that lists the bytes of an array takes them from the front. -/
theorem toList_loop_eq (bytes : ByteArray) (i : Nat) (done : List UInt8) :
    ByteArray.toList.loop bytes i done = done.reverse ++ bytes.data.toList.drop i := by
  induction i, done using ByteArray.toList.loop.induct bytes with
  | case1 i done hlt ih =>
    have hget : bytes.get! i = bytes.data.toList[i] := getElem!_pos bytes.data i hlt
    rw [ByteArray.toList.loop, if_pos hlt, ih, hget, List.drop_eq_getElem_cons hlt,
      List.reverse_cons, List.append_assoc, List.singleton_append]
  | case2 i done hge =>
    rw [ByteArray.toList.loop, if_neg hge, List.drop_eq_nil_of_le (Nat.le_of_not_lt hge),
      List.append_nil]

/-- The list of a byte array is that of its data. -/
theorem toList_eq_data_toList (bytes : ByteArray) : bytes.toList = bytes.data.toList :=
  toList_loop_eq bytes 0 []

/-- Strings with the same bytes are equal. -/
theorem toUTF8_toList_inj {a b : String} : a.toUTF8.toList = b.toUTF8.toList ↔ a = b := by
  rw [toList_eq_data_toList, toList_eq_data_toList, Array.toList_inj, ← ByteArray.ext_iff]
  exact String.toByteArray_inj

/-! ## Bytes of characters -/

namespace Text

/-- Whether a byte is an ASCII character that satisfies `p`. -/
def isByteOf (p : Char → Bool) (b : UInt8) : Bool :=
  b.toNat < 0x80 && p (Char.ofNat b.toNat)

variable {c : Char} {cs ds front : List Char} {b : UInt8} {p : Char → Bool}

/-- The bytes of a string are those of its characters. -/
theorem toList_toByteArray (s : String) : s.toByteArray.data.toList = bytes s.toList := by
  conv_lhs => rw [← String.ofList_toList (s := s), String.toByteArray_ofList]
  exact List.toList_data_toByteArray

/-- The UTF-8 encoding of a text is made of the bytes of its characters. -/
theorem toList_toUTF8 (s : String) : s.toUTF8.toList = bytes s.toList :=
  (toList_eq_data_toList s.toUTF8).trans (toList_toByteArray s)

/-- The byte of an ASCII character. -/
theorem utf8EncodeChar_of_lt (h : c.toNat < 0x80) :
    String.utf8EncodeChar c = [UInt8.ofNat c.toNat] :=
  if_pos (Nat.le_of_lt_succ h)

/-- An ASCII character has one byte. -/
theorem utf8Size_of_lt (h : c.toNat < 0x80) : c.utf8Size = 1 := by
  rw [← String.length_utf8EncodeChar, utf8EncodeChar_of_lt h]
  rfl

/-- Every blank of a stylesheet is an ASCII character. -/
theorem lt_of_isAsciiBlank (h : isAsciiBlank c = true) : c.toNat < 0x80 := by
  simp only [isAsciiBlank, Bool.or_eq_true, decide_eq_true_eq] at h
  rcases h with (((rfl | rfl) | rfl) | rfl) | rfl <;> decide

/-- No byte of a longer character is an ASCII character. -/
theorem le_of_mem_utf8EncodeChar (h : 0x80 ≤ c.toNat) (hb : b ∈ String.utf8EncodeChar c) :
    0x80 ≤ b.toNat := by
  unfold String.utf8EncodeChar at hb
  have hval : c.val.toNat = c.toNat := rfl
  simp only [hval, if_neg (Nat.not_le_of_lt h)] at hb
  split at hb
  · simp only [List.mem_cons, List.not_mem_nil, or_false] at hb
    rcases hb with rfl | rfl <;> rw [UInt8.toNat_ofNat'] <;> omega
  · split at hb
    · simp only [List.mem_cons, List.not_mem_nil, or_false] at hb
      rcases hb with rfl | rfl | rfl <;> rw [UInt8.toNat_ofNat'] <;> omega
    · simp only [List.mem_cons, List.not_mem_nil, or_false] at hb
      rcases hb with rfl | rfl | rfl | rfl <;> rw [UInt8.toNat_ofNat'] <;> omega

/-- A text whose bytes are all ASCII characters consists of these. -/
theorem eq_map_of_forall_lt (h : ∀ b ∈ bytes cs, b.toNat < 0x80) :
    cs = (bytes cs).map fun b => Char.ofNat b.toNat := by
  induction cs with
  | nil => rfl
  | cons c cs ih =>
    rw [bytes_cons, List.forall_mem_append] at h
    obtain ⟨hbytes, hrest⟩ := h
    have hc : c.toNat < 0x80 := by
      obtain ⟨b, hb⟩ := List.exists_mem_of_ne_nil _ (@String.utf8EncodeChar_ne_nil c)
      by_contra hlarge
      exact absurd (hbytes b hb)
        (Nat.not_lt_of_le (le_of_mem_utf8EncodeChar (Nat.le_of_not_lt hlarge) hb))
    have hbyte : (UInt8.ofNat c.toNat).toNat = c.toNat := by
      rw [UInt8.toNat_ofNat']
      omega
    rw [bytes_cons, utf8EncodeChar_of_lt hc, List.singleton_append, List.map_cons, hbyte,
      Char.ofNat_toNat, ← ih hrest]

/-- Each byte of a character tells whether the character is an ASCII one that satisfies `p`. -/
theorem isByteOf_of_mem (hp : ∀ c, p c = true → c.toNat < 0x80)
    (hb : b ∈ String.utf8EncodeChar c) : isByteOf p b = p c := by
  by_cases hc : c.toNat < 0x80
  · rw [utf8EncodeChar_of_lt hc, List.mem_singleton] at hb
    have hval : (UInt8.ofNat c.toNat).toNat = c.toNat := by
      rw [UInt8.toNat_ofNat']
      omega
    rw [hb, isByteOf, hval, Char.ofNat_toNat, decide_eq_true hc, Bool.true_and]
  · have hlarge := le_of_mem_utf8EncodeChar (Nat.le_of_not_lt hc) hb
    rw [isByteOf, decide_eq_false (Nat.not_lt_of_le hlarge), Bool.false_and]
    exact (Bool.eq_false_iff.mpr fun h => hc (hp c h)).symm

/-- A byte of a character is that of an ASCII one when the character is. -/
theorem eq_toUInt8_iff {d : Char} (hd : d.toNat < 0x80) (hb : b ∈ String.utf8EncodeChar c) :
    b = d.toUInt8 ↔ c = d := by
  have hval : d.toUInt8 = UInt8.ofNat d.toNat := rfl
  have htail := @isByteOf_of_mem c b (fun e => e = d) (fun e he => of_decide_eq_true he ▸ hd) hb
  constructor
  · rintro rfl
    have hnat : d.toUInt8.toNat = d.toNat := by
      rw [hval, UInt8.toNat_ofNat']
      omega
    rw [isByteOf, hnat, Char.ofNat_toNat, decide_eq_true hd, Bool.true_and, decide_eq_true rfl]
      at htail
    exact of_decide_eq_true htail.symm
  · rintro rfl
    rw [utf8EncodeChar_of_lt hd, List.mem_singleton] at hb
    rw [hb, hval]

/-- No byte of another character is that of an ASCII one. -/
theorem ne_toUInt8 {d : Char} (hd : d.toNat < 0x80) (hb : b ∈ String.utf8EncodeChar c)
    (hne : c ≠ d) : b ≠ d.toUInt8 :=
  mt (eq_toUInt8_iff hd hb).mp hne

/-- A text starts with the byte of an ASCII character when it starts with the character. -/
theorem head?_bytes_eq_some_iff {d : Char} (hd : d.toNat < 0x80) :
    (bytes cs).head? = some d.toUInt8 ↔ cs.head? = some d := by
  cases cs with
  | nil => simp [bytes]
  | cons c cs =>
    obtain ⟨b, bs, hbs⟩ := List.exists_cons_of_ne_nil (@String.utf8EncodeChar_ne_nil c)
    have hfirst := eq_toUInt8_iff hd (hbs ▸ List.mem_cons_self : b ∈ String.utf8EncodeChar c)
    rw [bytes_cons, hbs]
    simpa using hfirst

/-- Behind the first byte of a character there is none of an ASCII one. -/
theorem le_of_mem_tail (hb : b ∈ (String.utf8EncodeChar c).tail) : 0x80 ≤ b.toNat := by
  by_cases hc : c.toNat < 0x80
  · rw [utf8EncodeChar_of_lt hc] at hb
    exact absurd hb List.not_mem_nil
  · exact le_of_mem_utf8EncodeChar (Nat.le_of_not_lt hc) (List.mem_of_mem_tail hb)

/-- A byte above ASCII is no ASCII character. -/
theorem ne_toUInt8_of_le {d : Char} (hd : d.toNat < 0x80) (hb : 0x80 ≤ b.toNat) :
    b ≠ d.toUInt8 := by
  rintro rfl
  have hval : d.toUInt8 = UInt8.ofNat d.toNat := rfl
  rw [hval, UInt8.toNat_ofNat'] at hb
  omega

/-! ## Searches -/

/-- Over the bytes of some characters, forwards or backwards, a search that cannot tell the bytes
of a character apart stops where one over the characters does. -/
theorem findIdx_flatMap {q : UInt8 → Bool} {encode : Char → List UInt8}
    (hencode : ∀ c, (encode c).length = c.utf8Size)
    (hq : ∀ c, ∀ b ∈ encode c, q b = p c) :
    (cs.flatMap encode).findIdx q = byteLength (cs.takeWhile fun c => !p c) := by
  induction cs with
  | nil => rfl
  | cons c cs ih =>
    have hne : encode c ≠ [] := fun hnil => by
      have hsize := hencode c
      rw [hnil] at hsize
      exact absurd hsize (Nat.ne_of_lt c.utf8Size_pos)
    rw [List.flatMap_cons, List.takeWhile_cons, List.findIdx_append]
    by_cases hc : p c = true
    · obtain ⟨b, bs, hbs⟩ := List.exists_cons_of_ne_nil hne
      have hfirst : q b = true := (hq c b (hbs ▸ List.mem_cons_self)).trans hc
      simp [hbs, List.findIdx_cons, hfirst, hc]
    · have hnone : (encode c).findIdx q = (encode c).length :=
        List.findIdx_eq_length_of_false fun b hb => (hq c b hb).trans (Bool.eq_false_iff.mpr hc)
      simp [hnone, hencode, ih, hc, Nat.add_comm]

/-- The offset behind the last ASCII character that satisfies `p`, or else of the start. -/
def offsetBehindLast (p : Char → Bool) (cs : List Char) : Nat :=
  (bytes cs).length - (bytes cs).reverse.findIdx (isByteOf p)

/-- The offset of the first byte that is no ASCII character that satisfies `p`, or else of the
end. -/
def offsetOfOther (p : Char → Bool) (cs : List Char) : Nat :=
  (bytes cs).findIdx fun b => !isByteOf p b

/-- What is behind the last of some characters closes the text. -/
theorem append_behindLast (p : Char → Bool) (cs : List Char) :
    cs = (cs.reverse.dropWhile fun c => !p c).reverse ++ behindLast p cs := by
  rw [behindLast, ← List.reverse_append, List.takeWhile_append_dropWhile, List.reverse_reverse]

/-- What a search backwards over the bytes finds is behind the last of the characters. -/
theorem exists_append_behindLast (hp : ∀ c, p c = true → c.toNat < 0x80) (cs : List Char) :
    ∃ front, cs = front ++ behindLast p cs ∧ offsetBehindLast p cs = byteLength front := by
  have hcut := append_behindLast p cs
  refine ⟨_, hcut, ?_⟩
  have hbackwards : (bytes cs).reverse =
      cs.reverse.flatMap fun c => (String.utf8EncodeChar c).reverse := by
    rw [bytes, List.reverse_flatMap]
    rfl
  have hlength :
      byteLength (cs.reverse.takeWhile fun c => !p c) = byteLength (behindLast p cs) := by
    rw [← length_bytes, ← length_bytes, behindLast, bytes, bytes, List.length_flatMap,
      List.length_flatMap, List.map_reverse, List.sum_reverse]
  have hsearch : (bytes cs).reverse.findIdx (isByteOf p) = byteLength (behindLast p cs) := by
    rw [hbackwards, ← hlength]
    refine findIdx_flatMap (fun c => ?_) fun c b hb => ?_
    · rw [List.length_reverse, String.length_utf8EncodeChar]
    · exact isByteOf_of_mem hp (List.mem_reverse.mp hb)
  have hsize := congrArg byteLength hcut
  rw [byteLength_append] at hsize
  rw [offsetBehindLast, hsearch, length_bytes]
  omega

/-- What a search forwards over the bytes stops at is behind the first of the characters. -/
theorem offsetOfOther_eq (hp : ∀ c, p c = true → c.toNat < 0x80) (cs : List Char) :
    offsetOfOther p cs = byteLength (cs.takeWhile p) := by
  have hother : ∀ c, ∀ b ∈ String.utf8EncodeChar c, (!isByteOf p b) = !p c :=
    fun c b hb => congrArg Bool.not (isByteOf_of_mem hp hb)
  rw [offsetOfOther, bytes, findIdx_flatMap String.length_utf8EncodeChar hother]
  simp

end Text

end CssWorkbench
