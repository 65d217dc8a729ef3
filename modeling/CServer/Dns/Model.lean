import CServer.Foundation.Fallible
import Mathlib.Data.Nat.Notation

/-!
# The response parser of the asynchronous DNS client

`dns_parse_name` and `dns_parse_response` of async_dns_client_noblock.c. The receive buffer is a list
of bytes; reading behind its end, writing behind the end of a name array or of the list of items, and
turns that do not end are faults. The allocation of the list may fail; the texts in the items are
allocated.
-/
namespace CServer.Dns

def dnsHost : ℕ := 1

def dnsCname : ℕ := 5

/-- The size of `aname` and `cname`. -/
def nameLength : ℕ := 128

inductive Fault where
  | read
  | write
  | turns
  deriving DecidableEq

/-- `struct dns_item`. -/
structure DnsItem where
  domain : List UInt8
  ip : String
  deriving DecidableEq

/-! ## Memory -/

def read (chunk : List UInt8) (ptr : ℕ) : Except Fault ℕ :=
  match chunk[ptr]? with
  | some byte => .ok byte.toNat
  | none => .error .read

/-- `memcpy` from the buffer. -/
def copy (chunk : List UInt8) (ptr n : ℕ) : Except Fault (List UInt8) :=
  if ptr + n ≤ chunk.length then .ok ((chunk.drop ptr).take n) else .error .read

/-- Two bytes in network order. -/
def ntohs (chunk : List UInt8) (ptr : ℕ) : Except Fault ℕ := do
  let high ← read chunk ptr
  let low ← read chunk (ptr + 1)
  return 256 * high + low

/-- Bytes are written behind those that the array holds. -/
def store (out bytes : List UInt8) : Except Fault (List UInt8) :=
  if out.length + bytes.length ≤ nameLength then .ok (out ++ bytes) else .error .write

/-- The text that starts in an array whose other bytes are zero. -/
def text (out : List UInt8) : Except Fault (List UInt8) :=
  if out.length < nameLength ∨ 0 ∈ out then .ok (out.takeWhile (· ≠ 0)) else .error .read

/-- `list[cnt] = item; cnt++`. -/
def push (answers : ℕ) (list : List DnsItem) (item : DnsItem) : Except Fault (List DnsItem) :=
  if list.length < answers then .ok (list ++ [item]) else .error .write

/-- `inet_ntop` for four bytes. -/
def inetNtop (netip : List UInt8) : String :=
  ".".intercalate (netip.map fun byte => toString byte.toNat)

/-! ## Names -/

/-- `is_pointer`. -/
def isPointer (flag : ℕ) : Bool := flag &&& 0xC0 = 0xC0

/-- A point is written if the name goes on behind a label. -/
def storeDot (out : List UInt8) (next : ℕ) : Except Fault (List UInt8) :=
  if next ≠ 0 then store out ['.'.toUInt8] else .ok out

/-- `dns_parse_name`. The call for a pointer is the last thing that is done. -/
def dnsParseName (chunk : List UInt8) : ℕ → ℕ → List UInt8 → Except Fault (List UInt8)
  | 0, _, _ => .error .turns
  | turns + 1, ptr, out => do
    let flag ← read chunk ptr
    if flag = 0 then return out
    else if isPointer flag then do
      let n ← read chunk (ptr + 1)
      dnsParseName chunk turns n out
    else do
      let label ← copy chunk (ptr + 1) flag
      let out ← store out label
      let next ← read chunk (ptr + 1 + flag)
      let out ← storeDot out next
      dnsParseName chunk turns (ptr + 1 + flag) out

/-! ## Responses -/

/-- The loop over the labels of a question, with the type and class behind it. -/
def skipQuestion (chunk : List UInt8) : ℕ → ℕ → Except Fault ℕ
  | 0, _ => .error .turns
  | turns + 1, ptr => do
    let flag ← read chunk ptr
    if flag = 0 then return ptr + 1 + 4 else skipQuestion chunk turns (ptr + (flag + 1))

def skipQuestions (chunk : List UInt8) (turns : ℕ) : ℕ → ℕ → Except Fault ℕ
  | 0, ptr => return ptr
  | querys + 1, ptr => do
    let ptr ← skipQuestion chunk turns ptr
    skipQuestions chunk turns querys ptr

/-- What is done with the data of an answer, behind its fixed part. -/
def parseData (chunk : List UInt8) (turns answers : ℕ) (aname : List UInt8) (type datalen ptr : ℕ)
    (list : List DnsItem) : Except Fault (ℕ × List DnsItem) :=
  if type = dnsCname then do
    let _cname ← dnsParseName chunk turns ptr []
    return (ptr + datalen, list)
  else if type = dnsHost then
    if datalen = 4 then do
      let netip ← copy chunk ptr datalen
      let domain ← text aname
      let list ← push answers list ⟨domain, inetNtop netip⟩
      return (ptr + datalen, list)
    else return (ptr + datalen, list)
  else return (ptr, list)

/-- The body of the loop over the answers. The time to live is read for a message only. -/
def parseAnswer (chunk : List UInt8) (turns answers ptr : ℕ) (list : List DnsItem) :
    Except Fault (ℕ × List DnsItem) := do
  let aname ← dnsParseName chunk turns ptr []
  let type ← ntohs chunk (ptr + 2)
  let _ttl ← ntohs chunk (ptr + 6)
  let datalen ← ntohs chunk (ptr + 10)
  parseData chunk turns answers aname type datalen (ptr + 12) list

def parseAnswers (chunk : List UInt8) (turns answers : ℕ) :
    ℕ → ℕ → List DnsItem → Except Fault (List DnsItem)
  | 0, _, list => return list
  | n + 1, ptr, list => do
    let after ← parseAnswer chunk turns answers ptr list
    parseAnswers chunk turns answers n after.1 after.2

/-- `dns_parse_response`; `none` is the result -1. -/
def dnsParseResponse (chunk : List UInt8) (allocated : Bool) (turns : ℕ) :
    Except Fault (Option (List DnsItem)) := do
  let querys ← ntohs chunk 4
  let answers ← ntohs chunk 6
  let ptr ← skipQuestions chunk turns querys 12
  if allocated then do
    let list ← parseAnswers chunk turns answers answers ptr []
    return some list
  else return none

end CServer.Dns
