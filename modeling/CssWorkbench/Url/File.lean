import CssWorkbench.Url.Reference
import CssWorkbench.Workspace.Addressing

/-!
# URLs as addresses of files

Every file of this machine has one URL that is made from its path, and every URL that has a path and
no other machine as its host leads to a file. With that, URLs can be the addresses of documents.
-/

namespace CssWorkbench.Url

/-- The URL of the file that names lead to from the root. -/
def ofFile (names : List String) : Url :=
  let steps := names.map fun name => percentEncode hidesInFileName name.toList
  ⟨"file", some .none, .steps (if steps.isEmpty then [""] else steps), none, none⟩

/-- The name that some bytes spell. Bytes that are no text are taken for a name that no file has. -/
def nameOfBytes (bytes : List UInt8) : String :=
  (String.fromUTF8? ⟨bytes.toArray⟩).getD "\x00"

/-- The names between the slashes among some bytes. -/
def partsOfBytes (bytes : List UInt8) : List String :=
  (Text.splitAtEach (· = 0x2f) bytes).map nameOfBytes

/-- Whether some bytes end in a drive. -/
def endsInDrive (bytes : List UInt8) : Bool :=
  2 < bytes.length &&
    namesDrive ((bytes.drop (bytes.length - 2)).map fun b => Char.ofNat b.toNat)

/-- The path of the file that a URL leads to, if it leads to one on this machine. A drive is a
folder. -/
def filePath? (u : Url) : Option FilePath :=
  match u.path with
  | .plain _ | .steps [] => none
  | .steps steps =>
    if u.authority.all fun a => a.host = .none || a.host = .name "localhost" then
      let bytes := steps.flatMap fun step => 0x2f :: percentDecode step.toList
      some (.ofParts true (partsOfBytes (if endsInDrive bytes then bytes ++ [0x2f] else bytes)))
    else none

instance : Addressing Url where
  read? := ofString?
  join? := join?
  written := Url.toString
  ofFile? path := if path.absolute then some (ofFile path.names) else none
  filePath? := filePath?

end CssWorkbench.Url
