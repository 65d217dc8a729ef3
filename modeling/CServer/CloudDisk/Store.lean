import CServer.Foundation.Program
import CServer.Foundation.Rows
import CServer.Foundation.ScoreSet
import Mathlib.Data.Finmap
import Mathlib.Data.String.Basic

/-!
# The stores of the cloud disk

The MySQL tables, the redis keys and the FastDFS objects that the CGI programs
share, and the statements they send. Row order is insertion order. Strings are
compared as they are, and a statement is taken by what it asks, so the arguments
are those whose statement text the server reads as written. The tables number
their rows with an `int` key, so a count stays below 2^31 as long as every insert
succeeds, and is an integer here.
-/
namespace CServer.CloudDisk

open Rows

/-- A row of `file_info`; `md5` is not a key. -/
structure FileInfo where
  md5 : String
  fileId : String
  url : String
  size : ℤ
  type : String
  count : ℤ
  deriving DecidableEq, Repr

/-- A row of `user_file_list`. -/
structure UserFile where
  user : String
  md5 : String
  createTime : String
  fileName : String
  sharedStatus : ℤ
  pv : ℤ
  deriving DecidableEq, Repr

/-- A row of `share_file_list`. -/
structure ShareFile where
  user : String
  md5 : String
  createTime : String
  fileName : String
  pv : ℤ
  deriving DecidableEq, Repr

/-- `user_file_count` has a unique key on `user`; `filePublicZset` and
`fileNameHash` are the redis keys of the shared files, `tokens` the redis
strings stored under user names, `objects` the file ids FastDFS holds. -/
structure Store where
  fileInfo : List FileInfo
  userFileList : List UserFile
  shareFileList : List ShareFile
  userFileCount : Finmap (fun _ : String => ℤ)
  filePublicZset : ScoreSet String
  fileNameHash : Finmap (fun _ : String => String)
  tokens : Finmap (fun _ : String => String)
  objects : Finset String
  deriving DecidableEq

def Store.empty : Store where
  fileInfo := []
  userFileList := []
  shareFileList := []
  userFileCount := ∅
  filePublicZset := .empty
  fileNameHash := ∅
  tokens := ∅
  objects := ∅

/-- The key under which `user_file_count` holds the number of shared files. -/
def shareCountKey : String := "xxx_share_xxx_file_xxx_list_xxx_count_xxx"

/-- A redis server, as far as its commands are not fixed by the data. ZLEXCOUNT
counts by member order and is documented for equal scores only, where it tells
membership; on other sets its value depends on the encoding, but a positive
count always comes from the member itself. -/
structure RedisServer where
  zlexcount : ScoreSet String → String → ℕ
  zlexcount_of_equal : ∀ z m, (∀ a ∈ z.entries, ∀ b ∈ z.entries, a.1 = b.1) →
    zlexcount z m = if m ∈ z then 1 else 0
  mem_of_zlexcount : ∀ z m, 0 < zlexcount z m → m ∈ z

/-- A server whose ZLEXCOUNT tells membership on every set. -/
def RedisServer.exact : RedisServer where
  zlexcount z m := if m ∈ z then 1 else 0
  zlexcount_of_equal _ _ _ := rfl
  mem_of_zlexcount z m h := by
    by_contra hm
    simp [hm] at h

/-- What `process_result_one` returns: 0 with the first row's field saved, 1 no
record, 2 a record that was not saved, -1 failure. -/
inductive QueryResult (α : Type) where
  | saved (value : α)
  | noRecord
  | notSaved
  | failed
  deriving DecidableEq, Repr

/-- `rows` is the result set, absent when the query failed; `save` says whether
the caller passed a buffer for the first row. -/
def processResultOne {α : Type} (rows : Option (List α)) (save : Bool) : QueryResult α :=
  match rows with
  | none => .failed
  | some [] => .noRecord
  | some (row :: _) => if save then .saved row else .notSaved

/-- The orders in which a user's files are listed. -/
inductive ListOrder where
  | normal
  | pvasc
  | pvdesc
  deriving DecidableEq, Repr

/-- The statements the handlers send, each atomic. Updates reply whether they
succeeded; redis commands reply as the wrappers of `redis_op.c` do. -/
inductive Stmt : Type → Type where
  | connectMysql : Stmt Bool
  | connectRedis : Stmt Bool
  | setNames : Stmt Bool
  | selectFileInfoCount (md5 : String) : Stmt (QueryResult ℤ)
  | selectFileInfoId (md5 : String) : Stmt (QueryResult String)
  | insertFileInfo (row : FileInfo) : Stmt Bool
  | updateFileInfoCount (md5 : String) (count : ℤ) : Stmt Bool
  | deleteFileInfo (md5 : String) : Stmt Bool
  | selectUserFile (user md5 filename : String) : Stmt (QueryResult Unit)
  | selectSharedStatus (user md5 filename : String) : Stmt (QueryResult ℤ)
  | selectUserFilePv (user md5 filename : String) : Stmt (QueryResult ℤ)
  | selectUserFilelist (order : ListOrder) (user : String) (start count : ℤ) :
      Stmt (Option (List (UserFile × FileInfo)))
  | insertUserFile (row : UserFile) : Stmt Bool
  | updateSharedStatus (user md5 filename : String) (status : ℤ) : Stmt Bool
  | updateUserFilePv (user md5 filename : String) (pv : ℤ) : Stmt Bool
  | deleteUserFile (user md5 filename : String) : Stmt Bool
  | selectUserFileCount (user : String) : Stmt (QueryResult ℤ)
  | insertUserFileCount (user : String) (count : ℤ) : Stmt Bool
  | updateUserFileCount (user : String) (count : ℤ) : Stmt Bool
  | deleteUserFileCount (user : String) : Stmt Bool
  | selectShareFile (md5 filename : String) : Stmt (QueryResult Unit)
  | selectSharePv (md5 filename : String) : Stmt (QueryResult ℤ)
  | selectShareFilesByPv : Stmt (Option (List ShareFile))
  | insertShareFile (row : ShareFile) : Stmt Bool
  | updateSharePv (md5 filename : String) (pv : ℤ) : Stmt Bool
  | deleteShareFile (user md5 filename : String) : Stmt Bool
  | zsetExit (member : String) : Stmt ℤ
  | zsetAdd (score : ℤ) (member : String) : Stmt Bool
  | zsetZrem (member : String) : Stmt Bool
  | zsetIncrement (member : String) : Stmt Bool
  | zsetZcard : Stmt ℤ
  | zsetZrevrange (fromPos endPos : ℤ) : Stmt (Option (List String))
  | zsetGetScore (member : String) : Stmt ℤ
  | hashSet (field value : String) : Stmt Bool
  | hashGet (field : String) : Stmt (Option String)
  | hashDel (field : String) : Stmt Bool
  | delZset : Stmt Bool
  | delHash : Stmt Bool
  | getString (key : String) : Stmt (Option String)
  | removeFileFromStorage (fileId : String) : Stmt Bool

namespace UserFile

/-- The row is the one `where user = .. and md5 = .. and file_name = ..` asks for. -/
def named (user md5 filename : String) (r : UserFile) : Bool :=
  r.user = user ∧ r.md5 = md5 ∧ r.fileName = filename

/-- The three columns by which the handlers name a row. -/
def key (r : UserFile) : String × String × String := (r.user, r.md5, r.fileName)

theorem named_eq_key (user md5 filename : String) :
    named user md5 filename = fun r => decide (r.key = (user, md5, filename)) := by
  funext r
  simp [named, key]

end UserFile

namespace ShareFile

def named (user md5 filename : String) (r : ShareFile) : Bool :=
  r.user = user ∧ r.md5 = md5 ∧ r.fileName = filename

/-- The row is one of `where md5 = .. and file_name = ..`. -/
def ofFile (md5 filename : String) (r : ShareFile) : Bool :=
  r.md5 = md5 ∧ r.fileName = filename

def key (r : ShareFile) : String × String × String := (r.user, r.md5, r.fileName)

/-- The two columns that the redis member and the counts of downloads go by. -/
def fileKey (r : ShareFile) : String × String := (r.md5, r.fileName)

theorem named_eq_key (user md5 filename : String) :
    named user md5 filename = fun r => decide (r.key = (user, md5, filename)) := by
  funext r
  simp [named, key]

theorem ofFile_eq_key (md5 filename : String) :
    ofFile md5 filename = fun r => decide (r.fileKey = (md5, filename)) := by
  funext r
  simp [ofFile, fileKey]

end ShareFile

namespace Store

variable (s : Store)

def fileInfoOf (md5 : String) : List FileInfo := s.fileInfo.filter (fun r => r.md5 = md5)

def userFilesNamed (user md5 filename : String) : List UserFile :=
  s.userFileList.filter (UserFile.named user md5 filename)

def filesOf (user : String) : List UserFile := s.userFileList.filter (fun r => r.user = user)

/-- The rows of a user joined with `file_info` on the md5. -/
def joinedFiles (user : String) : List (UserFile × FileInfo) :=
  (s.filesOf user).flatMap (fun file => (s.fileInfoOf file.md5).map (fun r => (file, r)))

def sharesOf (md5 filename : String) : List ShareFile :=
  s.shareFileList.filter (ShareFile.ofFile md5 filename)

def addFileInfo (row : FileInfo) : Store := { s with fileInfo := s.fileInfo ++ [row] }

def setFileInfoCount (md5 : String) (count : ℤ) : Store :=
  { s with
    fileInfo := updateWhere (fun r => r.md5 = md5) (fun r => { r with count := count }) s.fileInfo }

def dropFileInfo (md5 : String) : Store :=
  { s with fileInfo := deleteWhere (fun r => r.md5 = md5) s.fileInfo }

def addUserFile (row : UserFile) : Store := { s with userFileList := s.userFileList ++ [row] }

def setSharedStatus (user md5 filename : String) (status : ℤ) : Store :=
  { s with
    userFileList := updateWhere (UserFile.named user md5 filename)
      (fun r => { r with sharedStatus := status }) s.userFileList }

def setUserFilePv (user md5 filename : String) (pv : ℤ) : Store :=
  { s with
    userFileList := updateWhere (UserFile.named user md5 filename)
      (fun r => { r with pv := pv }) s.userFileList }

def dropUserFile (user md5 filename : String) : Store :=
  { s with userFileList := deleteWhere (UserFile.named user md5 filename) s.userFileList }

def setUserFileCount (user : String) (count : ℤ) : Store :=
  { s with userFileCount := s.userFileCount.insert user count }

def dropUserFileCount (user : String) : Store :=
  { s with userFileCount := s.userFileCount.erase user }

def addShareFile (row : ShareFile) : Store := { s with shareFileList := s.shareFileList ++ [row] }

def setSharePv (md5 filename : String) (pv : ℤ) : Store :=
  { s with
    shareFileList := updateWhere (ShareFile.ofFile md5 filename)
      (fun r => { r with pv := pv }) s.shareFileList }

def dropShareFile (user md5 filename : String) : Store :=
  { s with shareFileList := deleteWhere (ShareFile.named user md5 filename) s.shareFileList }

def zadd (member : String) (score : ℤ) : Store :=
  { s with filePublicZset := s.filePublicZset.add member score }

def zrem (member : String) : Store :=
  { s with filePublicZset := s.filePublicZset.erase member }

def hset (field value : String) : Store :=
  { s with fileNameHash := s.fileNameHash.insert field value }

def hdel (field : String) : Store := { s with fileNameHash := s.fileNameHash.erase field }

def dropObject (fileId : String) : Store := { s with objects := s.objects.erase fileId }

end Store

/-- ZREVRANGE: both ends included, negative ranks counted from the last one. -/
def zrevrange (z : ScoreSet String) (fromPos endPos : ℤ) : List String :=
  let n : ℤ := z.card
  let start := if fromPos < 0 then max (n + fromPos) 0 else fromPos
  let stop := if endPos < 0 then n + endPos else endPos
  (z.ranking.drop start.toNat).take (stop - start + 1).toNat

/-- The rows of `share_file_list`, `order by pv desc`. -/
def shareFilesByPv (rows : List ShareFile) : List ShareFile :=
  rows.insertionSort (fun a b => b.pv ≤ a.pv)

/-- `order by pv asc` and `order by pv desc`. -/
def ListOrder.sort (order : ListOrder) (rows : List (UserFile × FileInfo)) :
    List (UserFile × FileInfo) :=
  match order with
  | .normal => rows
  | .pvasc => rows.insertionSort (fun a b => a.1.pv ≤ b.1.pv)
  | .pvdesc => rows.insertionSort (fun a b => b.1.pv ≤ a.1.pv)

/-- `limit start, count`; negative numbers are refused. -/
def limit {α : Type} (start count : ℤ) (rows : List α) : Option (List α) :=
  if start < 0 ∨ count < 0 then none else some ((rows.drop start.toNat).take count.toNat)

/-- Effect and reply of each statement. An insert into `user_file_count` meets
its unique key; ZADD, ZREM and HDEL report whether the member was added or
removed; `rop_zset_increment` compares a numeric reply with "OK". -/
def Stmt.exec (R : RedisServer) : {β : Type} → Stmt β → Store → β × Store
  | _, .connectMysql, s => (true, s)
  | _, .connectRedis, s => (true, s)
  | _, .setNames, s => (true, s)
  | _, .selectFileInfoCount md5, s =>
      (processResultOne (some ((s.fileInfoOf md5).map FileInfo.count)) true, s)
  | _, .selectFileInfoId md5, s =>
      (processResultOne (some ((s.fileInfoOf md5).map FileInfo.fileId)) true, s)
  | _, .insertFileInfo row, s => (true, s.addFileInfo row)
  | _, .updateFileInfoCount md5 count, s => (true, s.setFileInfoCount md5 count)
  | _, .deleteFileInfo md5, s => (true, s.dropFileInfo md5)
  | _, .selectUserFile user md5 filename, s =>
      (processResultOne (some ((s.userFilesNamed user md5 filename).map (fun _ => ()))) false, s)
  | _, .selectSharedStatus user md5 filename, s =>
      (processResultOne (some ((s.userFilesNamed user md5 filename).map UserFile.sharedStatus)) true, s)
  | _, .selectUserFilePv user md5 filename, s =>
      (processResultOne (some ((s.userFilesNamed user md5 filename).map UserFile.pv)) true, s)
  | _, .selectUserFilelist order user start count, s =>
      (limit start count (order.sort (s.joinedFiles user)), s)
  | _, .insertUserFile row, s => (true, s.addUserFile row)
  | _, .updateSharedStatus user md5 filename status, s =>
      (true, s.setSharedStatus user md5 filename status)
  | _, .updateUserFilePv user md5 filename pv, s => (true, s.setUserFilePv user md5 filename pv)
  | _, .deleteUserFile user md5 filename, s => (true, s.dropUserFile user md5 filename)
  | _, .selectUserFileCount user, s =>
      (processResultOne (some (s.userFileCount.lookup user).toList) true, s)
  | _, .insertUserFileCount user count, s =>
      if user ∈ s.userFileCount then (false, s) else (true, s.setUserFileCount user count)
  | _, .updateUserFileCount user count, s =>
      (true, if user ∈ s.userFileCount then s.setUserFileCount user count else s)
  | _, .deleteUserFileCount user, s => (true, s.dropUserFileCount user)
  | _, .selectShareFile md5 filename, s =>
      (processResultOne (some ((s.sharesOf md5 filename).map (fun _ => ()))) false, s)
  | _, .selectSharePv md5 filename, s =>
      (processResultOne (some ((s.sharesOf md5 filename).map ShareFile.pv)) true, s)
  | _, .selectShareFilesByPv, s => (some (shareFilesByPv s.shareFileList), s)
  | _, .insertShareFile row, s => (true, s.addShareFile row)
  | _, .updateSharePv md5 filename pv, s => (true, s.setSharePv md5 filename pv)
  | _, .deleteShareFile user md5 filename, s => (true, s.dropShareFile user md5 filename)
  | _, .zsetExit member, s => ((R.zlexcount s.filePublicZset member : ℤ), s)
  | _, .zsetAdd score member, s => (decide (member ∉ s.filePublicZset), s.zadd member score)
  | _, .zsetZrem member, s => (decide (member ∈ s.filePublicZset), s.zrem member)
  | _, .zsetIncrement member, s =>
      (false, s.zadd member ((s.filePublicZset.score member).getD 0 + 1))
  | _, .zsetZcard, s => ((s.filePublicZset.card : ℤ), s)
  | _, .zsetZrevrange fromPos endPos, s => (some (zrevrange s.filePublicZset fromPos endPos), s)
  | _, .zsetGetScore member, s => ((s.filePublicZset.score member).getD (-1), s)
  | _, .hashSet field value, s => (true, s.hset field value)
  | _, .hashGet field, s => (s.fileNameHash.lookup field, s)
  | _, .hashDel field, s => (decide (field ∈ s.fileNameHash), s.hdel field)
  | _, .delZset, s => (decide (0 < s.filePublicZset.card), { s with filePublicZset := .empty })
  | _, .delHash, s => (decide (s.fileNameHash ≠ ∅), { s with fileNameHash := ∅ })
  | _, .getString key, s => (s.tokens.lookup key, s)
  | _, .removeFileFromStorage fileId, s => (true, s.dropObject fileId)

/-- The reply to a statement that fails: -1 from `process_result_one`, a nonzero
`mysql_query`, an error reply from redis. -/
def Stmt.failed : {β : Type} → Stmt β → β
  | _, .connectMysql | _, .connectRedis | _, .setNames => false
  | _, .selectFileInfoCount _ | _, .selectFileInfoId _ | _, .selectUserFile .. => processResultOne none true
  | _, .selectSharedStatus .. | _, .selectUserFilePv .. => processResultOne none true
  | _, .selectUserFileCount _ | _, .selectShareFile .. | _, .selectSharePv .. => processResultOne none true
  | _, .insertFileInfo _ | _, .updateFileInfoCount .. | _, .deleteFileInfo _ => false
  | _, .insertUserFile _ | _, .updateSharedStatus .. | _, .updateUserFilePv .. => false
  | _, .deleteUserFile .. | _, .insertUserFileCount .. | _, .updateUserFileCount .. => false
  | _, .deleteUserFileCount _ | _, .insertShareFile _ | _, .updateSharePv .. => false
  | _, .deleteShareFile .. => false
  | _, .selectShareFilesByPv | _, .zsetZrevrange .. => none
  | _, .selectUserFilelist .. => none
  | _, .zsetExit _ | _, .zsetZcard | _, .zsetGetScore _ => -1
  | _, .zsetAdd .. | _, .zsetZrem _ | _, .zsetIncrement _ => false
  | _, .hashSet .. | _, .hashDel _ | _, .delZset | _, .delHash => false
  | _, .hashGet _ | _, .getString _ => none
  | _, .removeFileFromStorage _ => false

/-- The servers as a machine for programs of statements. -/
def servers (R : RedisServer) : Machine Stmt Store where
  exec c s := c.exec R s
  failed c := c.failed

end CServer.CloudDisk
