import CServer.Foundation.Search
import Mathlib.Data.Nat.Digits.Defs
import Mathlib.Data.List.DropRight

/-!
# The body of an upload

`recv_save_file` of upload_cgi.c with `trim_space` and `memstr`. A pointer into
`file_buf` is the part of the buffer from it on, so that the buffer ends where
the list does; a string in one of the other buffers is its text. The library
functions read what their documentation makes them read: `strstr` and `strchr`
go on to a hit or to the terminator, wherever the buffer ends. A call that uses a
null result, or that leaves a buffer, is a `Fault`. The standard input holds the whole
body.
-/
namespace CServer.CloudDisk

open Search

abbrev Bytes := List UInt8

/-- The bytes of a literal of the source. -/
def bytes (s : String) : Bytes := s.toList.map (fun c => UInt8.ofNat c.toNat)

abbrev crlf : Bytes := [13, 10]

abbrev quote : UInt8 := 34

def tempBufMaxLen : ℕ := 512
def userNameLen : ℕ := 128
def fileNameLen : ℕ := 256
def md5Len : ℕ := 256

/-- A null search result used as a pointer, a read that leaves `file_buf`, a write that
leaves the buffer it is meant for. -/
inductive Fault where
  | nullResult
  | readOutside
  | writeOutside
  deriving DecidableEq, Repr

/-- `isspace` in the C locale. -/
def isspace (c : UInt8) : Bool := c = 32 || (9 ≤ c && c ≤ 13)

/-- `trim_space`. The second loop stops at the first byte that is kept, if there is one.
For an empty text it looks at the byte before the buffer, and the result is empty
whatever is there. -/
def trimSpace (inbuf : Bytes) : Bytes := (inbuf.dropWhile isspace).rdropWhile isspace

/-- The loop of `memstr`, with `n` places left to try. -/
def memstrLoop (substr : Bytes) : ℕ → Bytes → Except Fault (Option (Bytes × Bytes))
  | 0, _ => .ok none
  | _ + 1, [] => .error .readOutside
  | n + 1, c :: cur =>
    if substr.head? = some c ∧ cur.length + 1 < substr.length then .error .readOutside
    else if substr <+: c :: cur then .ok (some ([], c :: cur))
    else (memstrLoop substr n cur).map (Option.map (fun hit => (c :: hit.1, hit.2)))

/-- `memstr`: the bytes before the first occurrence, and those from it on. -/
def memstr (fullData : Bytes) (fullDataLen : ℤ) (substr : Bytes) :
    Except Fault (Option (Bytes × Bytes)) :=
  if fullDataLen ≤ 0 ∨ substr = [] then .ok none
  else memstrLoop substr (fullDataLen - substr.length + 1).toNat fullData

def isdigit (c : UInt8) : Bool := 48 ≤ c && c ≤ 57

/-- The value of the digits a text begins with. -/
def digitsValue (s : Bytes) : ℕ :=
  (s.takeWhile isdigit).foldl (fun n c => 10 * n + (c.toNat - 48)) 0

/-- `strtol` with base 10: white space, a sign, digits; the value is kept within a long. -/
def strtol (s : Bytes) : ℤ :=
  match s.dropWhile isspace with
  | 45 :: s => max (-(2 ^ 63)) (-digitsValue s)
  | 43 :: s => min (2 ^ 63 - 1) (digitsValue s)
  | s => min (2 ^ 63 - 1) (digitsValue s)

/-- The text before a hit and the pointer to the hit, or null. -/
def strstr (haystack needle : Bytes) : Except Fault (Option (Bytes × Bytes)) :=
  match search 0 needle haystack with
  | .found before rest => .ok (some (before, rest))
  | .absent => .ok none
  | .overrun => .error .readOutside

def strchr (s : Bytes) (c : UInt8) : Except Fault (Option (Bytes × Bytes)) := strstr s [c]

/-- A search result that the source uses without a check. -/
def unchecked {α : Type} (result : Except Fault (Option α)) : Except Fault α := do
  match ← result with
  | some hit => return hit
  | none => throw .nullResult

/-- `strncpy` of a text into a buffer of `size` bytes, and its terminator. -/
def copyText (size : ℕ) (source : Bytes) : Except Fault Bytes :=
  if source.length < size then .ok source else .error .writeOutside

/-- The text up to the next CRLF, copied, and the pointer past the CRLF; null when there
is no CRLF. -/
def copyLine (size : ℕ) (begin : Bytes) : Except Fault (Option (Bytes × Bytes)) := do
  match ← strstr begin crlf with
  | none => return none
  | some (line, p) =>
    let copied ← copyText size line
    return some (copied, p.drop 2)

/-- A field of the header: its value and the pointer `k` to the quote that closes it. -/
def quotedField (key : String) (size : ℕ) (begin : Bytes) : Except Fault (Bytes × Bytes) := do
  let (_, q) ← unchecked (strstr begin (bytes key))
  -- past the key and the byte that should be a quote
  let (value, k) ← unchecked (strchr (q.drop ((bytes key).length + 1)) quote)
  let value ← copyText size value
  return (trimSpace value, k)

def userField (begin : Bytes) : Except Fault (Bytes × Bytes) :=
  quotedField "user=" userNameLen begin

def filenameField (begin : Bytes) : Except Fault (Bytes × Bytes) :=
  quotedField "filename=" fileNameLen begin

def md5Field (begin : Bytes) : Except Fault (Bytes × Bytes) := quotedField "md5=" md5Len begin

def sizeField (begin : Bytes) : Except Fault ℤ := do
  let (_, q) ← unchecked (strstr begin (bytes "size="))
  let (value, _) ← unchecked (strstr (q.drop (bytes "size=").length) crlf)
  let tmp ← copyText 256 value
  return strtol tmp

/-- The values `recv_save_file` returns through its arguments; the caller cleared them. -/
structure UploadHeader where
  user : Bytes
  filename : Bytes
  md5 : Bytes
  size : ℤ
  deriving DecidableEq, Repr

def UploadHeader.cleared : UploadHeader := ⟨[], [], [], 0⟩

/-- A file the program opened: its name, the length given to `ftruncate`, and the bytes
`write` put at its start. -/
structure SavedFile where
  filename : Bytes
  length : ℤ
  written : Bytes
  deriving DecidableEq, Repr

structure Received where
  ret : ℤ
  header : UploadHeader
  file : Option SavedFile
  deriving DecidableEq, Repr

def Received.failed (header : UploadHeader) : Received := ⟨-1, header, none⟩

/-- The machine: the sizes `malloc` grants, the names `open` can create or open, and how
many bytes one `write` takes. -/
structure Host where
  allocates : ℕ → Bool
  opens : Bytes → Bool
  writeMax : ℕ

/-- The four searches in the header, each from where the one before ended. -/
def headerFields (begin : Bytes) : Except Fault UploadHeader := do
  let (user, k) ← userField begin
  let (filename, k) ← filenameField k
  let (md5, k) ← md5Field k
  let size ← sizeField k
  return ⟨user, filename, md5, size⟩

/-- The content of the file: the bytes before the boundary, less two for the CRLF. A
negative length is refused by `ftruncate` and by `write`. -/
def saveContent (host : Host) (boundary : Bytes) (header : UploadHeader) (begin : Bytes)
    (len : ℤ) : Except Fault Received := do
  match ← memstr begin (len.bmod (2 ^ 32)) boundary with
  | none => return .failed header
  | some (content, _) =>
    if host.opens header.filename then
      let length : ℤ := content.length - 2
      return ⟨0, header,
        some ⟨header.filename, length, (begin.take length.toNat).take host.writeMax⟩⟩
    else return .failed header

/-- The part of `recv_save_file` after the second line. -/
def recvContent (host : Host) (boundary second third : Bytes) (len : ℤ) :
    Except Fault Received := do
  let header ← headerFields second
  -- the third line and the empty line after it
  let (contentType, p) ← unchecked (strstr third crlf)
  saveContent host boundary header (p.drop 4) (len - (contentType.length + 4))

/-- The part of `recv_save_file` after the first line. -/
def recvHeader (host : Host) (boundary second : Bytes) (len : ℤ) : Except Fault Received := do
  match ← copyLine tempBufMaxLen second with
  | none => return .failed .cleared
  | some (contentText, third) =>
    recvContent host boundary second third (len - (contentText.length + 2))

def recvSaveFile (host : Host) (body : Bytes) : Except Fault Received := do
  let len : ℤ := body.length
  -- the number of bytes read is kept in an int
  if host.allocates body.length = false ∨ len.bmod (2 ^ 32) = 0 then
    return .failed .cleared
  else match ← copyLine tempBufMaxLen body with
    | none => return .failed .cleared
    | some (boundary, second) => recvHeader host boundary second (len - (boundary.length + 2))

end CServer.CloudDisk
