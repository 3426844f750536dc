import CssWorkbench.Text.Span
import CssWorkbench.Token.Scanner

/-!
# The scanner over the bytes of a source

The scanner of this module stands at an offset into the UTF-8 bytes of the source and looks at
single bytes. A table of classes says what a byte may be: the bytes of every character outside ASCII
are taken for parts of a name. Where a character has to be stepped over as a whole, its first byte
says how long it is, and what a token spells is cut out of the source between two offsets.

A reader here is `none` where it asks for a byte that is not there, where it cuts the source at an
offset that is out of range or inside a character, and where it would go on for ever. Nothing in its
definition rules these out: the readers do not know where characters start. That they do not fail,
and that they find what `scan` finds over the characters, is proved apart.
-/

namespace CssWorkbench

namespace ByteScanner

/-! ## Classes of bytes -/

/-- A blank. -/
def isBlankByte (b : UInt8) : Bool :=
  b = ' '.toUInt8 || b = '\t'.toUInt8 || b = '\n'.toUInt8 || b = '\x0c'.toUInt8 ||
    b = '\r'.toUInt8

/-- A decimal digit. -/
def isDigitByte (b : UInt8) : Bool :=
  '0'.toUInt8 ≤ b && b ≤ '9'.toUInt8

/-- A hexadecimal digit. -/
def isHexByte (b : UInt8) : Bool :=
  isDigitByte b || ('a'.toUInt8 ≤ b && b ≤ 'f'.toUInt8) || ('A'.toUInt8 ≤ b && b ≤ 'F'.toUInt8)

/-- A byte that can open a name. -/
def isNameStartByte (b : UInt8) : Bool :=
  ('A'.toUInt8 ≤ b && b ≤ 'Z'.toUInt8) || ('a'.toUInt8 ≤ b && b ≤ 'z'.toUInt8) ||
    b = '_'.toUInt8 || 0x80 ≤ b

/-- A byte of a name. -/
def isNameByte (b : UInt8) : Bool :=
  isNameStartByte b || isDigitByte b || b = '-'.toUInt8

/-- A line break. -/
def isLineBreakByte (b : UInt8) : Bool :=
  b = '\n'.toUInt8 || b = '\r'.toUInt8 || b = '\x0c'.toUInt8

/-- A byte that an unquoted url cannot hold. -/
def breaksUrlByte (b : UInt8) : Bool :=
  b = '"'.toUInt8 || b = '\''.toUInt8 || b = '('.toUInt8 || b = '\\'.toUInt8

/-- The length of a character by its first byte. A byte that opens no character counts as one. -/
def utf8Length (first : UInt8) : Nat :=
  if first < 0xc0 then 1 else if first < 0xe0 then 2 else if first < 0xf0 then 3 else 4

/-! ## Looking at the source -/

variable (source : List Char)

/-- The byte at an offset, if there is one. -/
def byte? (pos : Nat) : Option UInt8 :=
  (Text.bytes source)[pos]?

/-- Whether a byte of a class stands at an offset. -/
def classAt (p : UInt8 → Bool) (pos : Nat) : Bool :=
  (byte? source pos).any p

/-- Whether the byte of an ASCII character stands at an offset. -/
def isAt (pos : Nat) (c : Char) : Bool :=
  classAt source (· = c.toUInt8) pos

/-- Whether a text stands at an offset, which must not be out of range. -/
def startsWith? (pos : Nat) (text : List Char) : Option Bool :=
  if pos ≤ (Text.bytes source).length then
    some ((Text.bytes text).isPrefixOf ((Text.bytes source).drop pos))
  else none

/-- Where there is a byte, the source has not ended. -/
theorem lt_length_of_byte? {pos : Nat} {b : UInt8} (h : byte? source pos = some b) :
    pos < (Text.bytes source).length :=
  (List.getElem?_eq_some_iff.mp h).1

/-- Where there is a byte of a class, the source has not ended. -/
theorem lt_length_of_classAt {p : UInt8 → Bool} {pos : Nat} (h : classAt source p pos = true) :
    pos < (Text.bytes source).length := by
  cases hb : byte? source pos with
  | none =>
    rw [classAt, hb] at h
    cases h
  | some b => exact lt_length_of_byte? source hb

/-- The first offset from `pos` on at which no byte of a class stands. -/
def skip (p : UInt8 → Bool) (pos : Nat) : Nat :=
  if _h : classAt source p pos then skip p (pos + 1) else pos
termination_by (Text.bytes source).length - pos
decreasing_by
  have := lt_length_of_classAt source _h
  omega

/-- As `skip`, over so many bytes at most. -/
def skipUpTo (p : UInt8 → Bool) : Nat → Nat → Nat
  | 0, pos => pos
  | limit + 1, pos => if classAt source p pos then skipUpTo p limit (pos + 1) else pos

/-- Whether an escape that a name may hold starts at an offset. -/
def startsEscapeAt (pos : Nat) : Bool :=
  isAt source pos '\\' &&
    classAt source (fun b => b ≠ '\n'.toUInt8 && b ≠ '\r'.toUInt8) (pos + 1)

/-- Whether a name goes on at an offset. -/
def startsNamePartAt (pos : Nat) : Bool :=
  classAt source isNameByte pos || startsEscapeAt source pos

/-- Whether an identifier starts at an offset. -/
def startsIdentAt (pos : Nat) : Bool :=
  if isAt source pos '-' then
    isAt source (pos + 1) '-' || classAt source isNameStartByte (pos + 1) ||
      startsEscapeAt source (pos + 1)
  else classAt source isNameStartByte pos || startsEscapeAt source pos

/-- Whether a number starts at an offset. -/
def startsNumberAt (pos : Nat) : Bool :=
  if isAt source pos '+' || isAt source pos '-' then
    classAt source isDigitByte (pos + 1) ||
      (isAt source (pos + 1) '.' && classAt source isDigitByte (pos + 2))
  else if isAt source pos '.' then classAt source isDigitByte (pos + 1)
  else classAt source isDigitByte pos

/-! ## Readers -/

/-- What a reader found: what the stretch spells, the offset behind it, and whether it is
malformed. -/
structure Reading where
  value : List Char
  stop : Nat
  malformed : Bool := false
deriving DecidableEq, Repr, Inhabited

namespace Reading

/-- Put what was read before in front of a reading. -/
def after (value : List Char) (r : Reading) : Reading :=
  { r with value := value ++ r.value }

/-- The token of a reading that began at `start`. -/
def token (r : Reading) (kind : TokenKind) (start : Nat) : Token :=
  ⟨kind, ⟨start, r.stop⟩, String.ofList r.value⟩

end Reading

/-- The character at an offset, whose first byte is `first`, and the offset behind it. -/
def character? (first : UInt8) (pos : Nat) : Option Reading := do
  let value ← Text.slice? pos (pos + utf8Length first) source
  some ⟨value, pos + utf8Length first, false⟩

/-- An escape behind its backslash. -/
def escape? (pos : Nat) : Option Reading :=
  match byte? source pos with
  | none => some ⟨[replacementChar], pos, false⟩
  | some first =>
    if isHexByte first then do
      let stop := skipUpTo source isHexByte 6 pos
      let digits ← Text.slice? pos stop source
      some ⟨[charOfCode (hexNumber digits)],
        if classAt source isBlankByte stop then stop + 1 else stop, false⟩
    else do
      let r ← character? source first pos
      some ⟨[r.value.headD replacementChar], r.stop, false⟩

/-- A character has at least one byte. -/
theorem utf8Length_pos (first : UInt8) : 0 < utf8Length first := by
  unfold utf8Length
  split
  · exact Nat.one_pos
  split
  · exact Nat.two_pos
  split <;> omega

/-- Reading a character takes something. -/
theorem lt_stop_of_character? {first : UInt8} {pos : Nat} {r : Reading}
    (h : character? source first pos = some r) : pos < r.stop := by
  obtain ⟨value, -, hvalue⟩ := Option.bind_eq_some_iff.mp h
  cases hvalue
  exact Nat.lt_add_of_pos_right (utf8Length_pos first)

/-- Skipping leads on. -/
theorem le_skipUpTo (p : UInt8 → Bool) (limit pos : Nat) : pos ≤ skipUpTo source p limit pos := by
  induction limit generalizing pos with
  | zero => exact Nat.le_refl pos
  | succ limit ih =>
    rw [skipUpTo]
    split
    · exact Nat.le_of_succ_le (ih (pos + 1))
    · exact Nat.le_refl pos

/-- An escape does not reach back. -/
theorem le_stop_of_escape? {pos : Nat} {r : Reading} (h : escape? source pos = some r) :
    pos ≤ r.stop := by
  unfold escape? at h
  split at h
  · cases h
    exact Nat.le_refl pos
  · split at h
    · obtain ⟨digits, -, hdigits⟩ := Option.bind_eq_some_iff.mp h
      cases hdigits
      have := le_skipUpTo source isHexByte 6 pos
      dsimp only
      split <;> omega
    · obtain ⟨c, hc, hvalue⟩ := Option.bind_eq_some_iff.mp h
      cases hvalue
      have hlt : pos < c.stop := lt_stop_of_character? source hc
      exact Nat.le_of_lt hlt

/-- The rest of a name from `pos` on. What stands between `run` and `pos` belongs to the name and
is still to be cut out. -/
def name? (run pos : Nat) : Option Reading :=
  if _h : classAt source isNameByte pos then name? run (pos + 1)
  else if _h : startsEscapeAt source pos then do
    let part ← Text.slice? run pos source
    match _hread : escape? source (pos + 1) with
    | none => none
    | some escaped =>
      let rest ← name? escaped.stop escaped.stop
      some ((rest.after escaped.value).after part)
  else do
    let part ← Text.slice? run pos source
    some ⟨part, pos, false⟩
termination_by (Text.bytes source).length - pos
decreasing_by
  · have := lt_length_of_classAt source _h
    omega
  · have := lt_length_of_classAt source (Bool.and_eq_true_iff.mp _h).1
    have := le_stop_of_escape? source _hread
    omega

/-- The rest of a comment from `pos` on, whose body starts at `body`. -/
def comment? (body pos : Nat) : Option Reading :=
  if pos < (Text.bytes source).length then do
    if ← startsWith? source pos ['*', '/'] then
      let value ← Text.slice? body pos source
      some ⟨value, pos + 2, false⟩
    else comment? body (pos + 1)
  else do
    let value ← Text.slice? body pos source
    some ⟨value, pos, false⟩
termination_by (Text.bytes source).length - pos
decreasing_by omega

/-- The rest of a string. -/
def string? (quote : UInt8) (pos : Nat) : Option Reading :=
  match _hbyte : byte? source pos with
  | none => some ⟨[], pos, false⟩
  | some b =>
    if b = quote then some ⟨[], pos + 1, false⟩
    else if isLineBreakByte b then some ⟨[], pos, true⟩
    else if b = '\\'.toUInt8 then
      match byte? source (pos + 1) with
      | none => string? quote (pos + 1)
      | some d =>
        if d = '\r'.toUInt8 && isAt source (pos + 2) '\n' then string? quote (pos + 3)
        else if isLineBreakByte d then string? quote (pos + 2)
        else
          match _hread : escape? source (pos + 1) with
          | none => none
          | some escaped => (string? quote escaped.stop).map (·.after escaped.value)
    else
      match _hread : character? source b pos with
      | none => none
      | some c => (string? quote c.stop).map (·.after c.value)
termination_by (Text.bytes source).length - pos
decreasing_by
  all_goals have := lt_length_of_byte? source _hbyte
  · omega
  · omega
  · omega
  · have := le_stop_of_escape? source _hread
    omega
  · have := lt_stop_of_character? source _hread
    omega

/-- The offset behind what is left of a malformed url. -/
def badUrl? (pos : Nat) : Option Nat :=
  match _hbyte : byte? source pos with
  | none => some pos
  | some b =>
    if b = ')'.toUInt8 then some (pos + 1)
    else if b = '\\'.toUInt8 && (byte? source (pos + 1)).isSome then do
      let first ← byte? source (pos + 1)
      badUrl? (pos + 1 + utf8Length first)
    else badUrl? (pos + 1)
termination_by (Text.bytes source).length - pos
decreasing_by
  all_goals
    have := lt_length_of_byte? source _hbyte
    omega

/-- The end of an unquoted url behind blanks. -/
def urlEnd? (pos : Nat) : Option Reading :=
  match byte? source pos with
  | none => some ⟨[], pos, false⟩
  | some b =>
    if b = ')'.toUInt8 then some ⟨[], pos + 1, false⟩
    else do
      let stop ← badUrl? source pos
      some ⟨[], stop, true⟩

/-- The rest of an unquoted url. -/
def url? (pos : Nat) : Option Reading :=
  match _hbyte : byte? source pos with
  | none => some ⟨[], pos, false⟩
  | some b =>
    if b = ')'.toUInt8 then some ⟨[], pos + 1, false⟩
    else if b = '\\'.toUInt8 && classAt source (· ≠ '\n'.toUInt8) (pos + 1) then
      match _hread : escape? source (pos + 1) with
      | none => none
      | some escaped => (url? escaped.stop).map (·.after escaped.value)
    else if isBlankByte b then urlEnd? source (skip source isBlankByte pos)
    else if breaksUrlByte b then do
      let stop ← badUrl? source pos
      some ⟨[], stop, true⟩
    else
      match _hread : character? source b pos with
      | none => none
      | some c => (url? c.stop).map (·.after c.value)
termination_by (Text.bytes source).length - pos
decreasing_by
  all_goals have := lt_length_of_byte? source _hbyte
  · have := le_stop_of_escape? source _hread
    omega
  · have := lt_stop_of_character? source _hread
    omega

/-! ## Tokens -/

/-- The token whose value is its own text. -/
def verbatim? (kind : TokenKind) (start stop : Nat) : Option Token := do
  let value ← Text.slice? start stop source
  some ⟨kind, ⟨start, stop⟩, String.ofList value⟩

/-- The offset behind the digits of a number, and behind its point and the digits there. -/
def numberEnd (pos : Nat) : Nat :=
  let whole := skip source isDigitByte pos
  if isAt source whole '.' && classAt source isDigitByte (whole + 1) then
    skip source isDigitByte (whole + 1)
  else whole

/-- A number with what is written against it. -/
def numeric? (start : Nat) : Option Token := do
  let stop := numberEnd source
    (if isAt source start '+' || isAt source start '-' then start + 1 else start)
  if isAt source stop '%' then
    let number ← Text.slice? start stop source
    some ⟨.percentage, ⟨start, stop + 1⟩, String.ofList number⟩
  else if startsIdentAt source stop then
    let unit ← name? source stop stop
    let number ← Text.slice? start stop source
    some ((unit.after number).token .dimension start)
  else verbatim? source .number start stop

/-- A name with what is written against it. -/
def identLike? (start : Nat) : Option Token := do
  let name ← name? source start start
  if isAt source name.stop '(' then
    let opened := (⟨name.value, name.stop + 1, false⟩ : Reading).token .function start
    if name.value.map Char.toLower = ['u', 'r', 'l'] then
      let body := skip source isBlankByte (name.stop + 1)
      if isAt source body '"' || isAt source body '\'' then some opened
      else
        let url ← url? source body
        if url.malformed then verbatim? source .badUrl start url.stop
        else some (url.token .url start)
    else some opened
  else some (name.token .ident start)

/-- The token at an offset; at the end of the source it is the end token. -/
def token? (start : Nat) : Option Token :=
  match byte? source start with
  | none => some (Token.eof start)
  | some b => do
    if isBlankByte b then
      verbatim? source .whitespace start (skip source isBlankByte start)
    else if ← startsWith? source start ['/', '*'] then
      let comment ← comment? source (start + 2) (start + 2)
      some (comment.token .comment start)
    else if b = '"'.toUInt8 || b = '\''.toUInt8 then
      let string ← string? source b (start + 1)
      some (string.token (if string.malformed then .badString else .string) start)
    else if startsNumberAt source start then numeric? source start
    else if b = '#'.toUInt8 && startsNamePartAt source (start + 1) then
      let name ← name? source (start + 1) (start + 1)
      some (name.token .hash start)
    else if b = '@'.toUInt8 && startsIdentAt source (start + 1) then
      let name ← name? source (start + 1) (start + 1)
      some (name.token .atKeyword start)
    else if ← startsWith? source start ['<', '!', '-', '-'] then
      some ⟨.cdo, ⟨start, start + 4⟩, "<!--"⟩
    else if ← startsWith? source start ['-', '-', '>'] then
      some ⟨.cdc, ⟨start, start + 3⟩, "-->"⟩
    else if startsIdentAt source start then identLike? source start
    else verbatim? source (punctuationKind (Char.ofNat b.toNat)) start (start + 1)

/-- Only the end token is found where the source has no byte. -/
theorem lt_length_of_token? {pos : Nat} {t : Token} (h : token? source pos = some t)
    (hkind : t.kind ≠ .eof) : pos < (Text.bytes source).length := by
  unfold token? at h
  split at h
  · cases h
    exact absurd rfl hkind
  · exact lt_length_of_byte? source ‹_›

/-- The tokens from an offset on, up to and with the end token. A token that takes nothing would be
found again for ever. -/
def tokensFrom? (pos : Nat) : Option (List Token) :=
  match _htoken : token? source pos with
  | none => none
  | some t =>
    if _hkind : t.kind = .eof then some [t]
    else if _hstop : pos < t.stop then (tokensFrom? t.stop).map (t :: ·)
    else none
termination_by (Text.bytes source).length - pos
decreasing_by
  have := lt_length_of_token? source _htoken _hkind
  omega

end ByteScanner

/-- The tokens that a scan over the bytes of a source finds. -/
def scanBytes? (source : String) : Option (List Token) :=
  ByteScanner.tokensFrom? source.toList 0

end CssWorkbench
