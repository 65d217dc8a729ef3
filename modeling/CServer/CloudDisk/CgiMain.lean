import CServer.CloudDisk.Accounts

/-!
# One process of a CGI program

The loops of dealfile_cgi.c, myfiles_cgi.c and md5_cgi.c: what of a request is
copied into the buffers of the process, what is left in them, and what the
process does next. A buffer is the text it holds up to its terminator, and the
texts of a request fit. A body is what cJSON makes of it: the named children of
the root, in order, each with both of its values; a field that is read as a text
is one. Every statement succeeds.
-/
namespace CServer.CloudDisk

open Program

/-- A named child of a JSON object. -/
structure CJson where
  string : String
  valuestring : String
  valueint : ℤ
  deriving DecidableEq, Repr

/-- `cJSON_GetObjectItem`: the first child of the name, whatever the case of the letters. -/
def getObjectItem (object : List CJson) (string : String) : Option CJson :=
  object.find? (fun c => c.string.toList.map Char.toLower = string.toList.map Char.toLower)

/-- What follows the first occurrence of `key`. -/
def afterKey (key : List Char) : List Char → Option (List Char)
  | [] => if key = [] then some [] else none
  | c :: rest =>
    if key.isPrefixOf (c :: rest) then some ((c :: rest).drop key.length) else afterKey key rest

/-- `query_parse_key_value`: the value starts two places after the key, whatever stands
between, and ends at `#`, `&` or the end. -/
def queryParseKeyValue (query key : String) : Option String :=
  (afterKey key.toList query.toList).map
    (fun rest => String.ofList ((rest.drop 1).takeWhile (fun c => c ≠ '#' ∧ c ≠ '&')))

/-- The content of a request: no length, nothing to read, or a text with its root, which
is absent when the text is not JSON. -/
inductive Body where
  | noData
  | unread
  | text (root : Option (List CJson))
  deriving DecidableEq, Repr

/-- A request. A query that ends with the key would put its value behind the query. -/
structure CgiRequest where
  query : String
  body : Body
  now : String
  query_complete : afterKey "cmd".toList query.toList ≠ some []

/-- The buffers of a process. -/
structure Memory where
  cmd : String
  user : String
  token : String
  md5 : String
  filename : String
  start : ℤ
  count : ℤ
  deriving DecidableEq, Repr

/-- Buffers filled with zeros. -/
def Memory.zero : Memory := ⟨"", "", "", "", "", 0, 0⟩

inductive Response where
  | noData
  | nothing
  | status (code : String)
  | userFilesCount (num : ℤ) (code : String)
  | files (rows : List (UserFile × FileInfo))
  deriving DecidableEq, Repr

/-- What a request leaves: the stores, the answer, and whose count or list the answer tells. -/
structure Served where
  store : Store
  response : Response
  disclosed : Option String

/-- Copy the values of the fields in their order; the first missing one ends it. -/
def readFields (object : List CJson) :
    List (String × (CJson → Memory → Memory)) → Memory → ℤ × Memory
  | [], m => (0, m)
  | (name, copy) :: fields, m =>
    match getObjectItem object name with
    | none => (-1, m)
    | some child => readFields object fields (copy child m)

/-- The parsers of the programs: a text that is not JSON copies nothing. -/
def parseJson (fields : List (String × (CJson → Memory → Memory))) (root : Option (List CJson))
    (m : Memory) : ℤ × Memory :=
  match root with
  | none => (-1, m)
  | some object => readFields object fields m

def copyUser (child : CJson) (m : Memory) : Memory := { m with user := child.valuestring }
def copyToken (child : CJson) (m : Memory) : Memory := { m with token := child.valuestring }
def copyMd5 (child : CJson) (m : Memory) : Memory := { m with md5 := child.valuestring }
def copyFilename (child : CJson) (m : Memory) : Memory := { m with filename := child.valuestring }
def copyStart (child : CJson) (m : Memory) : Memory := { m with start := child.valueint }
def copyCount (child : CJson) (m : Memory) : Memory := { m with count := child.valueint }

/-- dealfile_cgi.c -/
def getJsonInfo : Option (List CJson) → Memory → ℤ × Memory :=
  parseJson [("user", copyUser), ("md5", copyMd5), ("filename", copyFilename), ("token", copyToken)]

/-- myfiles_cgi.c -/
def getCountJsonInfo : Option (List CJson) → Memory → ℤ × Memory :=
  parseJson [("user", copyUser), ("token", copyToken)]

/-- myfiles_cgi.c -/
def getFileslistJsonInfo : Option (List CJson) → Memory → ℤ × Memory :=
  parseJson [("user", copyUser), ("token", copyToken), ("start", copyStart), ("count", copyCount)]

/-- md5_cgi.c -/
def getMd5Info : Option (List CJson) → Memory → ℤ × Memory :=
  parseJson [("user", copyUser), ("md5", copyMd5), ("fileName", copyFilename), ("token", copyToken)]

/-- `query_parse_key_value(query, "cmd", cmd, NULL)`, whose result is not looked at. -/
def readCmd (query : String) (m : Memory) : Memory :=
  match queryParseKeyValue query "cmd" with
  | none => m
  | some cmd => { m with cmd := cmd }

def verifyTokenProgram (user token : String) : Handler Unit :=
  verifyToken .connectRedis .getString user token

/-- The answer of `share_file`. -/
def shareResponse (ret : ℤ) : Response :=
  if ret = 0 then .status "010" else if ret = -1 then .status "011"
  else if ret = -2 then .status "012" else .nothing

/-- The answer of `del_file`. -/
def delResponse (ret : ℤ) : Response := if ret = 0 then .status "013" else .status "014"

/-- The answer of `pv_file` of dealfile_cgi.c. -/
def pvResponse (ret : ℤ) : Response := if ret = 0 then .status "016" else .status "017"

/-- The answer of `deal_md5`. -/
def md5Response (ret : ℤ) : Response :=
  if ret = 0 then .status "006" else if ret = -2 then .status "005" else .status "007"

/-- The answer of `get_user_filelist`. -/
def filelistResponse : Except ℤ (List (UserFile × FileInfo)) → Response
  | .ok rows => .files rows
  | .error _ => .status "015"

section Programs

variable (R : RedisServer) (s : Store) (now : String)

/-- A handler run for its answer. -/
def serveHandler (handler : Handler Unit) (answer : ℤ → Response) : Served :=
  let (r, t) := run (servers R) handler s
  ⟨t, answer (retOf r), none⟩

/-- The loop of dealfile_cgi.c from the token on. -/
def actDealfile (m : Memory) : Served :=
  match (run (servers R) (verifyTokenProgram m.user m.token) s).1 with
  | .error _ => ⟨s, .status "111", none⟩
  | .ok _ =>
    if m.cmd = "share" then serveHandler R s (shareFile m.user m.md5 m.filename now) shareResponse
    else if m.cmd = "del" then serveHandler R s (delFile m.user m.md5 m.filename) delResponse
    else if m.cmd = "pv" then serveHandler R s (pvUserFile m.user m.md5 m.filename) pvResponse
    else ⟨s, .nothing, none⟩

/-- `get_user_files_count`, called with the result of `verify_token`. -/
def actCount (m : Memory) : Served :=
  let ret := retOf (run (servers R) (verifyTokenProgram m.user m.token) s).1
  let code := if ret = 0 then "110" else "111"
  match (run (servers R) (getUserFilesCount m.user) s).1 with
  | .ok line => ⟨s, .userFilesCount line code, some m.user⟩
  | .error _ => ⟨s, .userFilesCount 0 code, some m.user⟩

def actFilelist (m : Memory) : Served :=
  match (run (servers R) (verifyTokenProgram m.user m.token) s).1 with
  | .error _ => ⟨s, .status "111", none⟩
  | .ok _ =>
    ⟨s, filelistResponse (run (servers R) (getUserFilelist m.cmd m.user m.start m.count) s).1,
      some m.user⟩

def actMd5 (m : Memory) : Served :=
  match (run (servers R) (verifyTokenProgram m.user m.token) s).1 with
  | .error _ => ⟨s, .status "111", none⟩
  | .ok _ => serveHandler R s (dealMd5 m.user m.md5 m.filename now) md5Response

/-- One turn of the loop of dealfile_cgi.c. -/
def serveDealfile (m : Memory) (r : CgiRequest) : Memory × Served :=
  let m := readCmd r.query m
  match r.body with
  | .noData => (m, ⟨s, .noData, none⟩)
  | .unread => (m, ⟨s, .nothing, none⟩)
  | .text root =>
    let m := (getJsonInfo root m).2
    (m, actDealfile R s r.now m)

/-- One turn of the loop of myfiles_cgi.c. -/
def serveMyfiles (m : Memory) (r : CgiRequest) : Memory × Served :=
  let m := readCmd r.query m
  match r.body with
  | .noData => (m, ⟨s, .noData, none⟩)
  | .unread => (m, ⟨s, .nothing, none⟩)
  | .text root =>
    if m.cmd = "count" then
      let m := (getCountJsonInfo root m).2
      (m, actCount R s m)
    else
      let m := (getFileslistJsonInfo root m).2
      (m, actFilelist R s m)

/-- One turn of the loop of md5_cgi.c, whose buffers are zeroed for each request. -/
def serveMd5 (m : Memory) (r : CgiRequest) : Memory × Served :=
  match r.body with
  | .noData => (m, ⟨s, .noData, none⟩)
  | .unread => (m, ⟨s, .nothing, none⟩)
  | .text root =>
    match getMd5Info root .zero with
    | (ret, fields) =>
      if ret ≠ 0 then (m, ⟨s, .nothing, none⟩) else (m, actMd5 R s r.now fields)

end Programs

inductive CgiProgram where
  | dealfile
  | myfiles
  | md5
  deriving DecidableEq, Repr

def CgiProgram.serve (P : CgiProgram) (R : RedisServer) (m : Memory) (s : Store) (r : CgiRequest) :
    Memory × Served :=
  match P with
  | .dealfile => serveDealfile R s m r
  | .myfiles => serveMyfiles R s m r
  | .md5 => serveMd5 R s m r

/-- One process after a request: its buffers and the stores. -/
def CgiProgram.step (P : CgiProgram) (R : RedisServer) (state : Memory × Store) (r : CgiRequest) :
    Memory × Store :=
  ((P.serve R state.1 state.2 r).1, (P.serve R state.1 state.2 r).2.store)

end CServer.CloudDisk
