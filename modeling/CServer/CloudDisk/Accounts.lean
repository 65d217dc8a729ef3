import CServer.CloudDisk.Handlers
import CServer.Foundation.Faults
import CServer.Foundation.Runs

/-!
# Registration, login and tokens

The table `user_info`, the token that redis holds under a user's name, and the
programs that read and write them. How MySQL compares the texts of `user_info`
and what a column keeps of a text depends on its collation and its mode, and is
left to `TextRules`. The coding of a token (DES, base64, MD5) is an argument.
A run records beside the stores which names were registered with success and
which password the login that stored each token had presented.
-/
namespace CServer.CloudDisk

open Program Runs

/-- A row of `user_info`, with unique keys on `user_name` and `nick_name`. -/
structure UserInfo where
  userName : String
  nickName : String
  password : String
  phone : String
  email : String
  createTime : String
  deriving DecidableEq, Repr

/-- `tokens` are the redis strings stored under user names. -/
structure Accounts where
  userInfo : List UserInfo
  tokens : Finmap (fun _ : String => String)
  deriving DecidableEq

def Accounts.empty : Accounts := ⟨[], ∅⟩

/-- How MySQL compares two user names and two nick names, and what a column of some
width keeps of a text: none when it refuses the text. -/
structure TextRules where
  same : String → String → Bool
  same_equivalence : Equivalence (fun a b => same a b = true)
  sameNick : String → String → Bool
  keep : ℕ → String → Option String

/-- Texts compared as they are, and too long ones refused. -/
def TextRules.exact : TextRules where
  same a b := a = b
  same_equivalence := by
    simp only [decide_eq_true_eq]
    exact eq_equivalence
  sameNick a b := a = b
  keep width text := if text.length ≤ width then some text else none

inductive AccountStmt : Type → Type where
  | connectMysql : AccountStmt Bool
  | connectRedis : AccountStmt Bool
  | setNames : AccountStmt Bool
  | selectUser (userName : String) : AccountStmt (QueryResult Unit)
  | selectPassword (userName : String) : AccountStmt (QueryResult String)
  | insertUser (row : UserInfo) : AccountStmt Bool
  | setexString (key value : String) : AccountStmt Bool
  | getString (key : String) : AccountStmt (Option String)

namespace Accounts

variable (T : TextRules) (s : Accounts)

/-- The rows of `where user_name = ..`. -/
def usersNamed (userName : String) : List UserInfo :=
  s.userInfo.filter (fun r => T.same r.userName userName)

/-- The row as its columns keep it. -/
def keptRow (row : UserInfo) : Option UserInfo := do
  let userName ← T.keep 32 row.userName
  let nickName ← T.keep 32 row.nickName
  let password ← T.keep 32 row.password
  let phone ← T.keep 16 row.phone
  let email ← T.keep 64 row.email
  return { row with userName, nickName, password, phone, email }

/-- An insert meets the widths of the columns and the two unique keys. -/
def insertUser (row : UserInfo) : Bool × Accounts :=
  match keptRow T row with
  | none => (false, s)
  | some kept =>
    if s.userInfo.any
        (fun r => T.same r.userName kept.userName || T.sameNick r.nickName kept.nickName)
    then (false, s)
    else (true, { s with userInfo := s.userInfo ++ [kept] })

end Accounts

def AccountStmt.exec (T : TextRules) : {β : Type} → AccountStmt β → Accounts → β × Accounts
  | _, .connectMysql, s => (true, s)
  | _, .connectRedis, s => (true, s)
  | _, .setNames, s => (true, s)
  | _, .selectUser userName, s =>
      (processResultOne (some ((s.usersNamed T userName).map (fun _ => ()))) false, s)
  | _, .selectPassword userName, s =>
      (processResultOne (some ((s.usersNamed T userName).map UserInfo.password)) true, s)
  | _, .insertUser row, s => s.insertUser T row
  | _, .setexString key value, s => (true, { s with tokens := s.tokens.insert key value })
  | _, .getString key, s => (s.tokens.lookup key, s)

def AccountStmt.failed : {β : Type} → AccountStmt β → β
  | _, .connectMysql | _, .connectRedis | _, .setNames => false
  | _, .selectUser _ | _, .selectPassword _ => processResultOne none true
  | _, .insertUser _ | _, .setexString .. => false
  | _, .getString _ => none

def accountServers (T : TextRules) : Machine AccountStmt Accounts where
  exec c s := c.exec T s
  failed c := c.failed

/-- login_cgi.c. The buffer `tmp` is empty unless a row was saved in it; the result
of `process_result_one` is not looked at. -/
def checkUserPwd (username pwd : String) : Program AccountStmt ℤ Unit := do
  if (← issue .connectMysql) then
    let _ ← issue .setNames
    let tmp ←
      match (← issue (.selectPassword username)) with
      | .saved password => pure password
      | _ => pure ""
    if tmp = pwd then return () else .exit (-1)
  else .exit (-1)

/-- login_cgi.c. `encode` is DES, base64 and the hexadecimal MD5; none is an error. -/
def setToken (encode : String → Option String) (username : String) (randNum : List ℕ) :
    Program AccountStmt ℤ String := do
  if (← issue .connectRedis) then
    match encode (username ++ String.join (randNum.map toString)) with
    | none => .exit (-1)
    | some token => if (← issue (.setexString username token)) then return token else .exit (-1)
  else .exit (-1)

/-- The login of login_cgi.c, with the token of the answer. -/
def login (encode : String → Option String) (username pwd : String) (randNum : List ℕ) :
    Program AccountStmt ℤ String := do
  checkUserPwd username pwd
  setToken encode username randNum

/-- reg_cgi.c, with the fields that the request was read into. -/
def userRegister (userName nickName pwd tel email timeStr : String) :
    Program AccountStmt ℤ Unit := do
  if (← issue .connectMysql) then
    let _ ← issue .setNames
    match (← issue (.selectUser userName)) with
    | .notSaved => .exit (-2)
    | _ =>
      let row : UserInfo :=
        { userName := userName, nickName := nickName, password := pwd, phone := tel, email := email
          createTime := timeStr }
      if (← issue (.insertUser row)) then return () else .exit (-1)
  else .exit (-1)

/-- util_cgi.c, over the commands by which redis is asked. -/
def verifyToken {F : Type → Type} (connect : F Bool) (get : String → F (Option String))
    (user token : String) : Program F ℤ Unit := do
  if (← issue connect) then
    match (← issue (get user)) with
    | none => .exit (-1)
    | some tmpToken => if token = tmpToken then return () else .exit (-1)
  else .exit (-1)

end CServer.CloudDisk
