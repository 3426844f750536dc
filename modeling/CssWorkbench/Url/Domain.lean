import CssWorkbench.Text.Blank
import CssWorkbench.Url.Percent
import CssWorkbench.Url.Punycode

/-!
# Domains

The name of a host as it is looked up: in small letters, and in ASCII. Letters of the Latin, Greek,
Cyrillic and Armenian alphabets are made small, wide forms of ASCII characters are made narrow, and
characters that cannot be seen are dropped. A label with characters outside ASCII is written in
Punycode behind `xn--`. A name with a character that no host may have is none.

Letters and the marks on them are not joined, and the direction of a script is not looked at.
-/

namespace CssWorkbench.Url

/-- Capital letters in a row of code points, and how far it is from each to its small letter. -/
structure CapitalRun where
  first : Nat
  last : Nat
  step : Nat
  shift : Int
deriving DecidableEq, Repr, Inhabited

/-- The capital letters outside ASCII. -/
def capitalRuns : List CapitalRun :=
  [⟨0xc0, 0xd6, 1, 32⟩, ⟨0xd8, 0xde, 1, 32⟩, ⟨0x100, 0x12e, 2, 1⟩, ⟨0x134, 0x136, 2, 1⟩,
    ⟨0x139, 0x13d, 2, 1⟩, ⟨0x141, 0x147, 2, 1⟩, ⟨0x14a, 0x176, 2, 1⟩, ⟨0x178, 0x178, 1, -121⟩,
    ⟨0x179, 0x17d, 2, 1⟩, ⟨0x181, 0x181, 1, 210⟩, ⟨0x182, 0x184, 2, 1⟩, ⟨0x186, 0x186, 1, 206⟩,
    ⟨0x187, 0x187, 1, 1⟩, ⟨0x189, 0x18a, 1, 205⟩, ⟨0x18b, 0x18b, 1, 1⟩, ⟨0x18e, 0x18e, 1, 79⟩,
    ⟨0x18f, 0x18f, 1, 202⟩, ⟨0x190, 0x190, 1, 203⟩, ⟨0x191, 0x191, 1, 1⟩, ⟨0x193, 0x193, 1, 205⟩,
    ⟨0x194, 0x194, 1, 207⟩, ⟨0x196, 0x196, 1, 211⟩, ⟨0x197, 0x197, 1, 209⟩, ⟨0x198, 0x198, 1, 1⟩,
    ⟨0x19c, 0x19c, 1, 211⟩, ⟨0x19d, 0x19d, 1, 213⟩, ⟨0x19f, 0x19f, 1, 214⟩, ⟨0x1a0, 0x1a4, 2, 1⟩,
    ⟨0x1a6, 0x1a6, 1, 218⟩, ⟨0x1a7, 0x1a7, 1, 1⟩, ⟨0x1a9, 0x1a9, 1, 218⟩, ⟨0x1ac, 0x1ac, 1, 1⟩,
    ⟨0x1ae, 0x1ae, 1, 218⟩, ⟨0x1af, 0x1af, 1, 1⟩, ⟨0x1b1, 0x1b2, 1, 217⟩, ⟨0x1b3, 0x1b5, 2, 1⟩,
    ⟨0x1b7, 0x1b7, 1, 219⟩, ⟨0x1b8, 0x1b8, 1, 1⟩, ⟨0x1bc, 0x1bc, 1, 1⟩, ⟨0x1cd, 0x1db, 2, 1⟩,
    ⟨0x1de, 0x1ee, 2, 1⟩, ⟨0x1f4, 0x1f4, 1, 1⟩, ⟨0x1f6, 0x1f6, 1, -97⟩, ⟨0x1f7, 0x1f7, 1, -56⟩,
    ⟨0x1f8, 0x21e, 2, 1⟩, ⟨0x220, 0x220, 1, -130⟩, ⟨0x222, 0x232, 2, 1⟩,
    ⟨0x23a, 0x23a, 1, 10795⟩, ⟨0x23b, 0x23b, 1, 1⟩, ⟨0x23d, 0x23d, 1, -163⟩,
    ⟨0x23e, 0x23e, 1, 10792⟩, ⟨0x241, 0x241, 1, 1⟩, ⟨0x243, 0x243, 1, -195⟩,
    ⟨0x244, 0x244, 1, 69⟩, ⟨0x245, 0x245, 1, 71⟩, ⟨0x246, 0x24e, 2, 1⟩, ⟨0x370, 0x372, 2, 1⟩,
    ⟨0x376, 0x376, 1, 1⟩, ⟨0x37f, 0x37f, 1, 116⟩, ⟨0x386, 0x386, 1, 38⟩, ⟨0x388, 0x38a, 1, 37⟩,
    ⟨0x38c, 0x38c, 1, 64⟩, ⟨0x38e, 0x38f, 1, 63⟩, ⟨0x391, 0x3a1, 1, 32⟩, ⟨0x3a3, 0x3ab, 1, 32⟩,
    ⟨0x3cf, 0x3cf, 1, 8⟩, ⟨0x3d8, 0x3ee, 2, 1⟩, ⟨0x3f4, 0x3f4, 1, -60⟩, ⟨0x3f7, 0x3f7, 1, 1⟩,
    ⟨0x3fa, 0x3fa, 1, 1⟩, ⟨0x3fd, 0x3ff, 1, -130⟩, ⟨0x400, 0x40f, 1, 80⟩, ⟨0x410, 0x42f, 1, 32⟩,
    ⟨0x460, 0x480, 2, 1⟩, ⟨0x48a, 0x4be, 2, 1⟩, ⟨0x4c0, 0x4c0, 1, 15⟩, ⟨0x4c1, 0x4cd, 2, 1⟩,
    ⟨0x4d0, 0x52e, 2, 1⟩, ⟨0x531, 0x556, 1, 48⟩, ⟨0x1e00, 0x1e94, 2, 1⟩, ⟨0x1ea0, 0x1efe, 2, 1⟩]

/-- Whether a code point is in a row of capital letters. -/
def CapitalRun.contains (r : CapitalRun) (n : Nat) : Bool :=
  r.first ≤ n && n ≤ r.last && (n - r.first) % r.step = 0

/-- The small letter of a letter outside ASCII. -/
def smallLetter (c : Char) : Char :=
  match capitalRuns.find? (·.contains c.toNat) with
  | some r => Char.ofNat ((c.toNat : Int) + r.shift).toNat
  | none => c

/-- The narrow form of a wide character, and the full stop for others that part labels. -/
def narrow (c : Char) : Char :=
  let n := c.toNat
  if 0xff01 ≤ n && n ≤ 0xff5e then Char.ofNat (n - 0xfee0)
  else if n = 0x3002 || n = 0xff61 then '.'
  else c

/-- Characters that cannot be seen and are dropped. -/
def isDropped (c : Char) : Bool :=
  let n := c.toNat
  n = 0xad || n = 0x34f || n = 0x200b || n = 0x2060 || n = 0x2064 || n = 0xfeff ||
    (0x180b ≤ n && n ≤ 0x180f) || (0xfe00 ≤ n && n ≤ 0xfe0f) || (0xe0100 ≤ n && n ≤ 0xe01ef)

/-- A text in small and narrow letters, without the characters that are dropped. -/
def foldName (cs : List Char) : List Char :=
  (cs.filter (!isDropped ·)).map fun c => smallLetter (narrow c).toLower

/-- Characters that no domain may have. -/
def isRefused (c : Char) : Bool :=
  let n := c.toNat
  n < 0x20 || " #/:<>?@[\\]^|%".toList.contains c || (0x7f ≤ n && n ≤ 0x9f) || Text.isBlank c ||
    (0x200c ≤ n && n ≤ 0x200f) || (0x202a ≤ n && n ≤ 0x202e) || (0x2061 ≤ n && n ≤ 0x206f) ||
    (0xe000 ≤ n && n ≤ 0xf8ff) || (0xfdd0 ≤ n && n ≤ 0xfdef) || (0xfff0 ≤ n && n ≤ 0xffff) ||
    0xe0000 ≤ n || 0xfffe ≤ n % 0x10000

/-- Marks that are put on the letter before them. -/
def isMark (c : Char) : Bool := 0x300 ≤ c.toNat && c.toNat ≤ 0x36f

/-- What opens a label that is written in Punycode. -/
def punycodeSign : List Char := "xn--".toList

/-- A label of a folded name in ASCII. A label that is in Punycode already has to stand for a folded
label outside ASCII. -/
def label? (cs : List Char) : Option (List Char) :=
  if cs.head?.any isMark then none
  else if cs.all fun c => c.toNat < 0x80 then
    if punycodeSign.isPrefixOf cs then
      match Punycode.decode? (cs.drop punycodeSign.length) with
      | some plain =>
        if foldName plain = plain && !plain.any isRefused && !plain.head?.any isMark &&
            plain.any fun c => 0x80 ≤ c.toNat then some cs
        else none
      | none => none
    else some cs
  else if punycodeSign.isPrefixOf cs then none
  else some (punycodeSign ++ Punycode.encode cs)

/-- A domain as it is looked up. -/
def domain? (cs : List Char) : Option (List Char) :=
  let folded := foldName cs
  if folded.any isRefused then none
  else ((Text.splitAtEach (· = '.') folded).mapM label?).map fun labels => ['.'].intercalate labels

end CssWorkbench.Url
