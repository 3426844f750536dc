import Mathlib.Data.List.Basic
import CssWorkbench.Proofs.Text.Bytes
import CssWorkbench.Url.File

/-!
# The URL of a file leads back to the file

The URL of a file spells each name on its path, with some characters written out as their bytes. The
percent sign is one of them, so that undoing the percent signs gives the bytes of the name back, and
no slash is among these. So URLs have the laws of addresses.
-/

namespace CssWorkbench

variable {p : Char → Bool}

namespace Url

/-- The UTF-8 encoding of a character alone is that of the character. -/
@[simp] theorem toList_toUTF8_singleton (c : Char) :
    (String.singleton c).toUTF8.toList = String.utf8EncodeChar c := by
  rw [Text.toList_toUTF8, String.toList_singleton]
  exact List.flatMap_singleton _ c

/-- The digits that a byte is written out with are hex digits with their values. -/
theorem hexValue_digit : ∀ n < 16,
    isHexDigit (Nat.digitChar n).toUpper = true ∧ hexValue (Nat.digitChar n).toUpper = n := by
  decide

/-- A byte that is written out is read back. -/
theorem percentDecode_percentByte (b : UInt8) (cs : List Char) :
    percentDecode (percentByte b ++ cs) = b :: percentDecode cs := by
  obtain ⟨hhigh, hhighValue⟩ := hexValue_digit (b.toNat / 16) (by have := b.toNat_lt; omega)
  obtain ⟨hlow, hlowValue⟩ := hexValue_digit (b.toNat % 16) (Nat.mod_lt _ (by decide))
  have hbyte : 16 * (b.toNat / 16) + b.toNat % 16 = b.toNat := Nat.div_add_mod _ _
  simp only [percentByte, List.cons_append, List.nil_append, percentDecode, hhigh, hlow,
    Bool.and_self, if_true, hhighValue, hlowValue, hbyte, UInt8.ofNat_toNat]

/-- Bytes that were written with percent signs are read again. -/
theorem percentDecode_flatMap_percentByte (bs : List UInt8) (cs : List Char) :
    percentDecode (bs.flatMap percentByte ++ cs) = bs ++ percentDecode cs := by
  induction bs with
  | nil => rfl
  | cons b bs ih =>
    rw [List.flatMap_cons, List.append_assoc, percentDecode_percentByte, ih, List.cons_append]

/-- A character other than a percent sign stands for itself. -/
theorem percentDecode_of_ne {c : Char} (hc : c ≠ '%') (cs : List Char) :
    percentDecode (c :: cs) = String.utf8EncodeChar c ++ percentDecode cs := by
  rw [← toList_toUTF8_singleton]
  exact percentDecode.eq_3 c cs fun _ _ _ h _ => hc h

/-- Undoing the percent signs of a text gives its bytes back, if its own percent signs are written
out. -/
theorem percentDecode_percentEncode (hp : p '%' = true) (cs : List Char) :
    percentDecode (percentEncode p cs).toList = Text.bytes cs := by
  rw [percentEncode, String.toList_ofList]
  induction cs with
  | nil => rfl
  | cons c cs ih =>
    rw [List.flatMap_cons, Text.bytes_cons]
    split
    · rw [percentChar, percentDecode_flatMap_percentByte, toList_toUTF8_singleton, ih]
    · next hc =>
      have hne : c ≠ '%' := fun h => hc (h ▸ hp)
      rw [List.singleton_append, percentDecode_of_ne hne, ih]

/-- No byte of a name without slashes is a slash. -/
theorem ne_slash_of_mem_bytes {name : String} {b : UInt8} (hname : '/' ∉ name.toList)
    (hb : b ∈ Text.bytes name.toList) : b ≠ 0x2f := by
  obtain ⟨c, hc, hb⟩ := List.mem_flatMap.mp hb
  rintro rfl
  have hslash : c = '/' := (Text.eq_toUInt8_iff (d := '/') (by decide) hb).mp rfl
  exact hname (hslash ▸ hc)

/-- The bytes of a name are read as the name. -/
theorem nameOfBytes_bytes (name : String) : nameOfBytes (Text.bytes name.toList) = name := by
  rw [nameOfBytes, ← Text.toList_toByteArray, Array.toArray_toList]
  exact congrArg (Option.getD · "\x00") (dif_pos name.isValidUTF8)

/-- The names between slashes that stand in front of names are an empty one and the names. -/
theorem partsOfBytes_flatMap {names : List String} (h : ∀ name ∈ names, '/' ∉ name.toList) :
    partsOfBytes (names.flatMap fun name => 0x2f :: Text.bytes name.toList) = "" :: names := by
  have hfree : ∀ part ∈ names.map fun name => Text.bytes name.toList,
      ∀ b ∈ part, decide (b = 0x2f) = false := by
    intro part hpart b hb
    obtain ⟨name, hname, rfl⟩ := List.mem_map.mp hpart
    exact decide_eq_false (ne_slash_of_mem_bytes (h name hname) hb)
  have hparts :=
    Text.splitAtEach_flatMap (p := fun b => decide (b = (0x2f : UInt8))) (a := 0x2f) rfl hfree
  rw [List.flatMap_map] at hparts
  have hnames : (names.map fun name => Text.bytes name.toList).map nameOfBytes = names := by
    rw [List.map_map]
    exact (List.map_congr_left fun name _ => nameOfBytes_bytes name).trans (List.map_id' names)
  rw [partsOfBytes, hparts, List.map_cons, hnames]
  exact congrArg (· :: names) (nameOfBytes_bytes "")

/-- The path that the URL of a file leads to goes by the names of the file. -/
theorem filePath?_ofFile {names : List String} (h : ∀ name ∈ names, FilePath.IsName name) :
    ∃ folderOnly, (ofFile names).filePath? = some ⟨names, folderOnly, true⟩ := by
  by_cases hne : names = []
  · subst hne
    exact ⟨true, by decide +kernel⟩
  have hbytes : (names.map fun name => percentEncode hidesInFileName name.toList).flatMap
      (fun step => 0x2f :: percentDecode step.toList) =
        names.flatMap fun name => 0x2f :: Text.bytes name.toList := by
    rw [List.flatMap_map]
    exact List.flatMap_congr fun name _ =>
      congrArg (0x2f :: ·) (percentDecode_percentEncode rfl name.toList)
  have hkept : names.filter (fun name => name ≠ "" && name ≠ ".") = names :=
    List.filter_eq_self.mpr fun name hname => by
      simp [(h name hname).1, (h name hname).2.1]
  have hslashes : ∀ name ∈ names, '/' ∉ name.toList := fun name hname => (h name hname).2.2
  rw [filePath?]
  split
  · next heq => simp [ofFile] at heq
  · next heq => simp [ofFile, hne] at heq
  · next steps _ heq =>
    obtain rfl : names.map (fun name => percentEncode hidesInFileName name.toList) = steps := by
      simpa [ofFile, hne] using heq
    refine ⟨_, (if_pos rfl).trans (congrArg some (congrArg (FilePath.mk · _ true) ?_))⟩
    -- A drive ends in one more slash, behind which there is an empty part.
    rw [hbytes]
    split
    · have hempty : ∀ name ∈ [""], '/' ∉ name.toList := by decide
      have hparts := partsOfBytes_flatMap (List.forall_mem_append.mpr ⟨hslashes, hempty⟩)
      rw [List.flatMap_append, List.flatMap_singleton] at hparts
      exact (congrArg (List.filter _) hparts).trans (by simpa using hkept)
    · rw [partsOfBytes_flatMap hslashes]
      simpa using hkept

/-- URLs are lawful addresses of files. -/
instance : LawfulAddressing Url where
  isSome_ofFile? path := by cases h : path.absolute <;> simp [Addressing.ofFile?, h]
  ofFile?_folderOnly _ _ := rfl
  filePath?_of_ofFile? {path u} hproper h := by
    obtain ⟨habsolute, hu⟩ := Option.ite_none_right_eq_some.mp h
    cases hu
    obtain ⟨folderOnly, hpath⟩ := filePath?_ofFile hproper
    exact ⟨folderOnly, hpath.trans (habsolute ▸ rfl)⟩

/-- An address of `/a.css` that is not made from the path, as it spells a letter by its code. -/
def escapedACss : Url := ⟨"file", some .none, .steps ["%61.css"], none, none⟩

/-- It leads to the file all the same. -/
theorem filePath?_escapedACss :
    Addressing.filePath? escapedACss = some ⟨["a.css"], false, true⟩ := by
  decide +kernel

end Url

end CssWorkbench
