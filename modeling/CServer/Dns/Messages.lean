import CServer.Dns.Walk

/-!
# DNS messages

The format of a response, stated without the parser: a header, questions and resource records, whose
names are labels of at most sixty-three bytes that end in a zero byte or in a pointer of fourteen bits to
an earlier offset. `Followable` says which responses the parser gets through: it goes two bytes past the
name of an answer, looks at the lower eight bits of a pointer only, and skips no data but that of the
types it knows.
-/
namespace CServer.Dns

variable {message chunk : List UInt8} {ptr stop : ℕ}

abbrev Label := List UInt8

/-- A name with points between the labels. -/
def dotted (labels : List Label) : List UInt8 := ['.'.toUInt8].intercalate labels

structure Record where
  name : List Label
  type : ℕ
  data : List UInt8

/-- The offset in the two bytes of a pointer. -/
def offset (high low : UInt8) : ℕ := 256 * (high.toNat - 192) + low.toNat

/-- The name at an offset, and where the message goes on behind it. -/
inductive WireName (message : List UInt8) : ℕ → List Label → ℕ → Prop where
  | root {ptr : ℕ} (hflag : message[ptr]? = some 0) : WireName message ptr [] (ptr + 1)
  | pointer {ptr stop : ℕ} {high low : UInt8} {labels : List Label} (hhigh : message[ptr]? = some high)
      (hpointer : 192 ≤ high.toNat) (hlow : message[ptr + 1]? = some low) (earlier : offset high low < ptr)
      (target : WireName message (offset high low) labels stop) : WireName message ptr labels (ptr + 2)
  | label {ptr stop : ℕ} {flag : UInt8} {labels : List Label} (hflag : message[ptr]? = some flag)
      (hsome : flag ≠ 0) (hshort : flag.toNat ≤ 63)
      (rest : WireName message (ptr + 1 + flag.toNat) labels stop) :
      WireName message ptr ((message.drop (ptr + 1)).take flag.toNat :: labels) stop

/-- Questions, each a name with a type and a class. -/
def WireQuestions (message : List UInt8) : ℕ → ℕ → ℕ → Prop
  | 0, ptr, stop => ptr = stop
  | n + 1, ptr, stop => ∃ labels next, WireName message ptr labels next ∧ next + 4 ≤ message.length ∧
      WireQuestions message n (next + 4) stop

/-- The record at an offset, with its name up to another one: type, class, time to live, length and data
follow. -/
structure WireRecord (message : List UInt8) (ptr stop : ℕ) (record : Record) : Prop where
  name : WireName message ptr record.name stop
  short : (dotted record.name).length < 128
  type : NumberAt message stop record.type
  length : NumberAt message (stop + 8) record.data.length
  inside : stop + 10 + record.data.length ≤ message.length
  data : (message.drop (stop + 10)).take record.data.length = record.data
  address : record.type = dnsHost → record.data.length = 4
  cname : record.type = dnsCname → ∃ labels, (dotted labels).length < 128 ∧
    WireName message (stop + 10) labels (stop + 10 + record.data.length)

def WireRecords (message : List UInt8) : ℕ → List Record → Prop
  | _, [] => True
  | ptr, record :: records => ∃ stop, WireRecord message ptr stop record ∧
      WireRecords message (stop + 10 + record.data.length) records

/-- A response with the records as its answers; `querys` questions end where the answers start. -/
structure Response (message : List UInt8) (querys start : ℕ) (records : List Record) : Prop where
  length : message.length ≤ 1024
  questions : NumberAt message 4 querys
  answers : NumberAt message 6 records.length
  names : WireQuestions message querys 12 start
  records : WireRecords message start records

/-- The address records, as the parser should return them. -/
def addresses (records : List Record) : List DnsItem :=
  (records.filter fun record => record.type = dnsHost).map fun record =>
    ⟨dotted record.name, inetNtop record.data⟩

/-! ## What the parser can follow -/

/-- Each pointer of the name has an offset below 256, and behind a label none leads to the root. -/
inductive LowName (message : List UInt8) : Bool → ℕ → Prop where
  | root {behind : Bool} {ptr : ℕ} (hflag : message[ptr]? = some 0) : LowName message behind ptr
  | pointer {behind : Bool} {ptr : ℕ} {low : UInt8} (hhigh : message[ptr]? = some 192)
      (hlow : message[ptr + 1]? = some low) (hroot : behind = true → message[low.toNat]? ≠ some 0)
      (target : LowName message behind low.toNat) : LowName message behind ptr
  | label {behind : Bool} {ptr : ℕ} {flag : UInt8} (hflag : message[ptr]? = some flag) (hsome : flag ≠ 0)
      (hshort : flag.toNat ≤ 63) (rest : LowName message true (ptr + 1 + flag.toNat)) :
      LowName message behind ptr

/-- The name has no pointer. -/
inductive PlainName (message : List UInt8) : ℕ → Prop where
  | root {ptr : ℕ} (hflag : message[ptr]? = some 0) : PlainName message ptr
  | label {ptr : ℕ} {flag : UInt8} (hflag : message[ptr]? = some flag) (hsome : flag ≠ 0)
      (hshort : flag.toNat ≤ 63) (rest : PlainName message (ptr + 1 + flag.toNat)) : PlainName message ptr

/-- No question has a pointer in its name. -/
def PlainQuestions (message : List UInt8) : ℕ → ℕ → Prop
  | 0, _ => True
  | n + 1, ptr => PlainName message ptr ∧
      ∀ labels next, WireName message ptr labels next → PlainQuestions message n (next + 4)

/-- The name of each record is a pointer and low, and so is each canonical name; the data of a type that the
parser does not know is empty or the last of the answers; and the name of an address has no zero in it. -/
def FollowableRecords (message : List UInt8) : ℕ → List Record → Prop
  | _, [] => True
  | ptr, record :: records => (message[ptr]? = some 192 ∧ LowName message false ptr) ∧
      (record.type = dnsCname → LowName message false (ptr + 12)) ∧
      (record.type = dnsHost → 0 ∉ dotted record.name) ∧
      (record.type = dnsCname ∨ record.type = dnsHost ∨ record.data = [] ∨ records = []) ∧
      FollowableRecords message (ptr + 12 + record.data.length) records

/-- The parser can follow the response. -/
structure Followable (message : List UInt8) (querys start : ℕ) (records : List Record) : Prop where
  questions : PlainQuestions message querys 12
  records : FollowableRecords message start records

end CServer.Dns
