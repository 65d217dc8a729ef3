import CServer.CloudDisk.Store

/-!
# The request handlers

Each handler of the CGI programs as a program of statements, in the order of the
source. `gotoEnd ret` is the jump to the label `END` with `ret` set; a handler
that reaches its end returns 0. Connections are closed after `END`, which
changes no store. The current time is an argument of the handlers that write it.
-/
namespace CServer.CloudDisk

open Program

abbrev Handler := Program Stmt ℤ

def gotoEnd {α : Type} (ret : ℤ) : Handler α := .exit ret

/-- `ret` at the label `END`. -/
def retOf : Except ℤ Unit → ℤ
  | .ok () => 0
  | .error ret => ret

/-- `if (mysql_query(conn, sql_cmd) != 0) { ret = -1; goto END; }` -/
def mysqlQuery (c : Stmt Bool) : Handler Unit := do
  if (← issue c) then return () else gotoEnd (-1)

/-- Connect and set the character set; the result of `set names` is not looked at. -/
def connectMysql : Handler Unit := do
  mysqlQuery .connectMysql
  let _ ← issue .setNames

def connectRedis : Handler Unit := mysqlQuery .connectRedis

/-- Read a count of `user_file_count` and write it back one higher, inserting
the row when there is none. When the read fails, the text of the select is still
in `sql_cmd` and is sent again in place of the write. -/
def increaseUserFileCount (user : String) : Handler Unit := do
  match (← issue (.selectUserFileCount user)) with
  | .noRecord => mysqlQuery (.insertUserFileCount user 1)
  | .saved count => mysqlQuery (.updateUserFileCount user (count + 1))
  | _ =>
    match (← issue (.selectUserFileCount user)) with
    | .failed => gotoEnd (-1)
    | _ => return ()

/-- The row the handlers insert for a file a user has just got. -/
def newUserFile (user md5 now filename : String) : UserFile where
  user := user
  md5 := md5
  createTime := now
  fileName := filename
  sharedStatus := 0
  pv := 0

/-- The row `share_file` inserts. -/
def newShareFile (user md5 now filename : String) : ShareFile where
  user := user
  md5 := md5
  createTime := now
  fileName := filename
  pv := 0

/-- `get_file_suffix`: the text after the last dot, "null" when it is empty or
there is no dot. -/
def getFileSuffix (fileName : String) : String :=
  let tail := fileName.toList.reverse.takeWhile (· ≠ '.')
  if tail.length = fileName.toList.length ∨ tail = [] then "null"
  else String.ofList tail.reverse

/-- The row `store_fileinfo_to_mysql` inserts into `file_info`. -/
def newFileInfo (filename md5 : String) (size : ℤ) (fileid fdfsFileUrl : String) : FileInfo where
  md5 := md5
  fileId := fileid
  url := fdfsFileUrl
  size := size
  type := getFileSuffix filename
  count := 1

/-- upload_cgi.c -/
def storeFileinfoToMysql (user filename md5 : String) (size : ℤ) (fileid fdfsFileUrl now : String) :
    Handler Unit := do
  connectMysql
  mysqlQuery (.insertFileInfo (newFileInfo filename md5 size fileid fdfsFileUrl))
  mysqlQuery (.insertUserFile (newUserFile user md5 now filename))
  increaseUserFileCount user

/-- The three updates by which `deal_md5` and `save_file` give a user a stored
file with `count` references so far. -/
def addFileOwner (user md5 filename now : String) (count : ℤ) : Handler Unit := do
  mysqlQuery (.updateFileInfoCount md5 (count + 1))
  mysqlQuery (.insertUserFile (newUserFile user md5 now filename))
  increaseUserFileCount user

/-- md5_cgi.c. A failed first query is neither a result nor no result, and falls
through to `END` with `ret` still 0. -/
def dealMd5 (user md5 filename now : String) : Handler Unit := do
  connectMysql
  match (← issue (.selectFileInfoCount md5)) with
  | .saved count =>
    match (← issue (.selectUserFile user md5 filename)) with
    | .notSaved => gotoEnd (-2)
    | _ => addFileOwner user md5 filename now count
  | .noRecord => gotoEnd (-3)
  | _ => return ()

/-- `save_file` for a user without the file. -/
def saveNewFile (user md5 filename now : String) : Handler Unit := do
  match (← issue (.selectFileInfoCount md5)) with
  | .saved count => addFileOwner user md5 filename now count
  | _ => gotoEnd (-1)

/-- dealsharefile_cgi.c -/
def saveFile (user md5 filename now : String) : Handler Unit := do
  connectMysql
  match (← issue (.selectUserFile user md5 filename)) with
  | .notSaved => gotoEnd (-2)
  | _ => saveNewFile user md5 filename now

/-- `rop_zset_add` and `rop_hash_set`, whose results are not looked at. -/
def setRanking (score : ℤ) (fileid filename : String) : Handler Unit := do
  let _ ← issue (.zsetAdd score fileid)
  let _ ← issue (.hashSet fileid filename)

/-- dealfile_cgi.c. `fileid` is the md5 followed by the file name. -/
def shareFile (user md5 filename now : String) : Handler Unit := do
  connectRedis
  connectMysql
  let fileid := md5 ++ filename
  let ret2 ← issue (.zsetExit fileid)
  if ret2 = 1 then gotoEnd (-2)
  else if ret2 = 0 then
    match (← issue (.selectShareFile md5 filename)) with
    | .notSaved =>
      let _ ← issue (.zsetAdd 0 fileid)
      gotoEnd (-2)
    | _ =>
      mysqlQuery (.updateSharedStatus user md5 filename 1)
      mysqlQuery (.insertShareFile (newShareFile user md5 now filename))
      increaseUserFileCount shareCountKey
      setRanking 0 fileid filename
  else gotoEnd (-1)

/-- `del_file`, steps 1 and 2: the share flag, and whether redis has the file. -/
def delFileShareFlags (user md5 filename : String) : Handler (ℤ × Bool) := do
  let ret2 ← issue (.zsetExit (md5 ++ filename))
  if ret2 = 1 then return (1, true)
  else if ret2 = 0 then
    match (← issue (.selectSharedStatus user md5 filename)) with
    | .saved share => return (share, false)
    | .failed => gotoEnd (-1)
    | _ => return (0, false)
  else gotoEnd (-1)

/-- `del_file`, steps 3 and 4: take a shared file off the share list. -/
def delFileUnshare (user md5 filename : String) (flag : Bool) : Handler Unit := do
  mysqlQuery (.deleteShareFile user md5 filename)
  match (← issue (.selectUserFileCount shareCountKey)) with
  | .saved count =>
    mysqlQuery (.updateUserFileCount shareCountKey (count - 1))
    if flag then
      let _ ← issue (.zsetZrem (md5 ++ filename))
      let _ ← issue (.hashDel (md5 ++ filename))
    else return ()
  | _ => gotoEnd (-1)

/-- One file less in `user_file_count`; the last one takes the row with it. -/
def decreaseUserFileCount (user : String) : Handler Unit := do
  match (← issue (.selectUserFileCount user)) with
  | .saved count =>
    if count = 1 then mysqlQuery (.deleteUserFileCount user)
    else mysqlQuery (.updateUserFileCount user (count - 1))
  | _ => gotoEnd (-1)

/-- `del_file`, the reference count: at 0 the row and the stored object go. -/
def delFileReference (md5 : String) : Handler Unit := do
  match (← issue (.selectFileInfoCount md5)) with
  | .saved count =>
    mysqlQuery (.updateFileInfoCount md5 (count - 1))
    if count - 1 = 0 then
      match (← issue (.selectFileInfoId md5)) with
      | .saved fileId =>
        mysqlQuery (.deleteFileInfo md5)
        mysqlQuery (.removeFileFromStorage fileId)
      | _ => gotoEnd (-1)
    else return ()
  | _ => gotoEnd (-1)

/-- `del_file` after its questions about the share. -/
def delFileSteps (user md5 filename : String) (share : ℤ) (flag : Bool) : Handler Unit := do
  if share = 1 then delFileUnshare user md5 filename flag else pure ()
  decreaseUserFileCount user
  mysqlQuery (.deleteUserFile user md5 filename)
  delFileReference md5

/-- dealfile_cgi.c -/
def delFile (user md5 filename : String) : Handler Unit := do
  connectRedis
  connectMysql
  let (share, flag) ← delFileShareFlags user md5 filename
  delFileSteps user md5 filename share flag

/-- dealsharefile_cgi.c, the download mark of a shared file. The result of
`rop_zset_increment` becomes `ret`. -/
def pvFile (md5 filename : String) : Handler Unit := do
  connectRedis
  connectMysql
  let fileid := md5 ++ filename
  match (← issue (.selectSharePv md5 filename)) with
  | .saved pv =>
    mysqlQuery (.updateSharePv md5 filename (pv + 1))
    let ret2 ← issue (.zsetExit fileid)
    if ret2 = 1 then
      if (← issue (.zsetIncrement fileid)) then return () else gotoEnd (-1)
    else if ret2 = 0 then setRanking (pv + 1) fileid filename
    else gotoEnd (-1)
  | _ => gotoEnd (-1)

/-- dealfile_cgi.c, the download mark of a file of the user's own. -/
def pvUserFile (user md5 filename : String) : Handler Unit := do
  connectMysql
  match (← issue (.selectUserFilePv user md5 filename)) with
  | .saved pv => mysqlQuery (.updateUserFilePv user md5 filename (pv + 1))
  | _ => gotoEnd (-1)

/-- dealsharefile_cgi.c. The results of ZREM and HDEL become `ret`. -/
def cancelShareFile (user md5 filename : String) : Handler Unit := do
  connectRedis
  connectMysql
  let fileid := md5 ++ filename
  mysqlQuery (.updateSharedStatus user md5 filename 0)
  decreaseUserFileCount shareCountKey
  mysqlQuery (.deleteShareFile user md5 filename)
  mysqlQuery (.zsetZrem fileid)
  mysqlQuery (.hashDel fileid)

/-- myfiles_cgi.c. Every path ends at the answer; a count that was not read is 0. -/
def getUserFilesCount (user : String) : Program Stmt ℤ ℤ := do
  if (← issue .connectMysql) then
    let _ ← issue .setNames
    match (← issue (.selectUserFileCount user)) with
    | .saved line => return line
    | _ => return 0
  else return 0

/-- The query of `get_user_filelist`; a list without rows is answered as a failure. -/
def queryUserFilelist (order : ListOrder) (user : String) (start count : ℤ) :
    Program Stmt ℤ (List (UserFile × FileInfo)) := do
  match (← issue (.selectUserFilelist order user start count)) with
  | none => gotoEnd (-1)
  | some [] => gotoEnd (-1)
  | some (row :: rows) => return row :: rows

/-- myfiles_cgi.c. Another `cmd` leaves the query empty, which the server refuses. -/
def getUserFilelist (cmd user : String) (start count : ℤ) :
    Program Stmt ℤ (List (UserFile × FileInfo)) := do
  connectMysql
  let order ←
    if cmd = "normal" then pure ListOrder.normal
    else if cmd = "pvasc" then pure ListOrder.pvasc
    else if cmd = "pvdesc" then pure ListOrder.pvdesc
    else gotoEnd (-1)
  queryUserFilelist order user start count

/-- A C `int` holding the value, reduced as two's complement does. -/
def int32 (n : ℤ) : ℤ := n.bmod (2 ^ 32)

/-- `rop_zset_zrevrange`, called with `endPos = start + count - 1`. The number of
replies is compared with the number asked for as an unsigned one. -/
def ropZsetZrevrange (fromPos endPos : ℤ) : Program Stmt ℤ (List String) := do
  match (← issue (.zsetZrevrange fromPos endPos)) with
  | none => gotoEnd (-1)
  | some values =>
    let count := int32 (endPos - fromPos + 1)
    return if 0 ≤ count ∧ count < values.length then values.take count.toNat else values

/-- The loop over the rows of MySQL that fills the redis keys again. -/
def importShareFiles : List ShareFile → Handler Unit
  | [] => return ()
  | row :: rows => do
    let _ ← issue (.zsetAdd row.pv (row.md5 ++ row.fileName))
    let _ ← issue (.hashSet (row.md5 ++ row.fileName) row.fileName)
    importShareFiles rows

/-- The loop over the ranked members that builds the answer. -/
def rankingItems : List String → Program Stmt ℤ (List (String × ℤ))
  | [] => return []
  | fileid :: rest => do
    match (← issue (.hashGet fileid)) with
    | none => gotoEnd (-1)
    | some filename =>
      let score ← issue (.zsetGetScore fileid)
      if score = -1 then gotoEnd (-1)
      else
        let items ← rankingItems rest
        return (filename, score) :: items

/-- sharefiles_cgi.c. The two numbers of shared files are compared, and redis is
filled again from MySQL when they differ. A negative `count` leaves `calloc`
without memory. -/
def getRankingFilelist (start count : ℤ) : Program Stmt ℤ (List (String × ℤ)) := do
  connectRedis
  connectMysql
  match (← issue (.selectUserFileCount shareCountKey)) with
  | .saved sqlNum =>
    let redisNum ← issue .zsetZcard
    if redisNum = -1 then gotoEnd (-1)
    else
      if redisNum ≠ sqlNum then
        let _ ← issue .delZset
        let _ ← issue .delHash
        match (← issue .selectShareFilesByPv) with
        | none => gotoEnd (-1)
        | some [] => gotoEnd (-1)
        | some (row :: rows) => importShareFiles (row :: rows)
      else pure ()
      if count < 0 then gotoEnd (-1)
      else
        let values ← ropZsetZrevrange start (int32 (start + count - 1))
        rankingItems values
  | _ => gotoEnd (-1)

end CServer.CloudDisk
