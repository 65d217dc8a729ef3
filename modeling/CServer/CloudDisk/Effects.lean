import CServer.CloudDisk.Handlers

/-!
# What a request does to the stores

The state a handler leaves when every statement succeeds, as a function of the
state it found. Each effect is given by the few updates that reach it, and a
lemma ties it to the handler; later proofs use only the effects.
-/
namespace CServer.CloudDisk

open Program Rows

namespace Store

variable (s : Store)

/-- The count stored for a user, absent read as 0. -/
def countOf (user : String) : ℤ := (s.userFileCount.lookup user).getD 0

def increaseCount (user : String) : Store := s.setUserFileCount user (s.countOf user + 1)

def decreaseCount (user : String) (count : ℤ) : Store :=
  { s with
    userFileCount := if count = 1 then s.userFileCount.erase user
      else s.userFileCount.insert user (count - 1) }

/-- A new file, its first owner and the reference count 1. -/
def addNewFile (row : FileInfo) (file : UserFile) : Store :=
  ((s.addFileInfo row).addUserFile file).increaseCount file.user

/-- One more owner of a stored file. -/
def addOwner (file : UserFile) (count : ℤ) : Store :=
  ((s.setFileInfoCount file.md5 (count + 1)).addUserFile file).increaseCount file.user

/-- Instant upload and saving a shared file end alike: the user gets the file
when it is stored and the user does not list it yet. -/
def gainFile (user md5 now filename : String) : Store :=
  match s.fileInfoOf md5, s.userFilesNamed user md5 filename with
  | r :: _, [] => s.addOwner (newUserFile user md5 now filename) r.count
  | _, _ => s

/-- One reference less; with the last one the row and the object go. -/
def releaseReference (md5 : String) : Store :=
  match s.fileInfoOf md5 with
  | [] => s
  | r :: _ =>
    if r.count = 1 then (s.dropFileInfo md5).dropObject r.fileId
    else s.setFileInfoCount md5 (r.count - 1)

/-- `del_file` after its share steps, for a user with a stored count. -/
def loseFile (user md5 filename : String) (count : ℤ) : Store :=
  ((s.decreaseCount user count).dropUserFile user md5 filename).releaseReference md5

/-- `del_file` after its share steps. -/
def deleteOwn (user md5 filename : String) : Store :=
  match s.userFileCount.lookup user with
  | none => s
  | some count => s.loseFile user md5 filename count

/-- The flags of `del_file`; none when redis answers neither 0 nor 1. -/
def shareFlags (R : RedisServer) (user md5 filename : String) : Option (ℤ × Bool) :=
  match R.zlexcount s.filePublicZset (md5 ++ filename) with
  | 0 => some (((s.userFilesNamed user md5 filename).head?.map UserFile.sharedStatus).getD 0, false)
  | 1 => some (1, true)
  | _ => none

/-- The share steps of `del_file`, with the counter of the shared files there. -/
def unshareFile (user md5 filename : String) (flag : Bool) (count : ℤ) : Store :=
  let t := (s.dropShareFile user md5 filename).setUserFileCount shareCountKey (count - 1)
  if flag then (t.zrem (md5 ++ filename)).hdel (md5 ++ filename) else t

/-- `del_file` when its share flag is set. -/
def deleteShared (user md5 filename : String) (flag : Bool) : Store :=
  match s.userFileCount.lookup shareCountKey with
  | none => s.dropShareFile user md5 filename
  | some count => (s.unshareFile user md5 filename flag count).deleteOwn user md5 filename

def delFile (R : RedisServer) (user md5 filename : String) : Store :=
  match s.shareFlags R user md5 filename with
  | none => s
  | some (share, flag) =>
    if share = 1 then s.deleteShared user md5 filename flag else s.deleteOwn user md5 filename

/-- A file put on the share list, in MySQL and in redis. -/
def publish (user md5 now filename : String) : Store :=
  ((((s.setSharedStatus user md5 filename 1).addShareFile
    (newShareFile user md5 now filename)).increaseCount shareCountKey).zadd
      (md5 ++ filename) 0).hset (md5 ++ filename) filename

def shareFile (R : RedisServer) (user md5 now filename : String) : Store :=
  if R.zlexcount s.filePublicZset (md5 ++ filename) = 0 then
    match s.sharesOf md5 filename with
    | [] => s.publish user md5 now filename
    | _ :: _ => s.zadd (md5 ++ filename) 0
  else s

/-- The redis steps of `cancel_share_file`: HDEL is sent when ZREM removed a member. -/
def withdraw (fileid : String) : Store :=
  { s with
    filePublicZset := s.filePublicZset.erase fileid
    fileNameHash := if fileid ∈ s.filePublicZset then s.fileNameHash.erase fileid
      else s.fileNameHash }

def cancelShareFile (user md5 filename : String) : Store :=
  match s.userFileCount.lookup shareCountKey with
  | none => s.setSharedStatus user md5 filename 0
  | some count =>
    (((s.setSharedStatus user md5 filename 0).decreaseCount shareCountKey count).dropShareFile
      user md5 filename).withdraw (md5 ++ filename)

/-- The redis steps of `pv_file`, with the new number of downloads. -/
def markRanking (R : RedisServer) (md5 filename : String) (pv : ℤ) : Store :=
  match R.zlexcount s.filePublicZset (md5 ++ filename) with
  | 0 => (s.zadd (md5 ++ filename) pv).hset (md5 ++ filename) filename
  | 1 => s.zadd (md5 ++ filename) ((s.filePublicZset.score (md5 ++ filename)).getD 0 + 1)
  | _ => s

def pvFile (R : RedisServer) (md5 filename : String) : Store :=
  match s.sharesOf md5 filename with
  | [] => s
  | r :: _ => (s.setSharePv md5 filename (r.pv + 1)).markRanking R md5 filename (r.pv + 1)

/-- The redis keys of the shared files emptied. -/
def clearRanking : Store := { s with filePublicZset := .empty, fileNameHash := ∅ }

/-- The redis keys filled from rows of `share_file_list`. -/
def importRanking (rows : List ShareFile) : Store :=
  rows.foldl (fun t row => (t.zadd (row.md5 ++ row.fileName) row.pv).hset
    (row.md5 ++ row.fileName) row.fileName) s

/-- `get_ranking_filelist` fills redis again when the two counts differ. -/
def refreshRanking : Store :=
  match s.userFileCount.lookup shareCountKey with
  | none => s
  | some sqlNum =>
    if (s.filePublicZset.card : ℤ) = sqlNum then s
    else s.clearRanking.importRanking (shareFilesByPv s.shareFileList)

/-- One entry of the answer: the file name from the hash and the score. -/
def rankingItem (fileid : String) : Option (String × ℤ) :=
  match s.fileNameHash.lookup fileid, s.filePublicZset.score fileid with
  | some filename, some score => if score = -1 then none else some (filename, score)
  | _, _ => none

/-- The members that `rop_zset_zrevrange` copies for a page of the ranking. -/
def rankingPage (start count : ℤ) : List String :=
  let endPos := int32 (start + count - 1)
  let values := zrevrange s.filePublicZset start endPos
  let asked := int32 (endPos - start + 1)
  if 0 ≤ asked ∧ asked < values.length then values.take asked.toNat else values

/-- The answer of `get_ranking_filelist`, read from the refreshed keys. -/
def rankingAnswer (start count : ℤ) : Except ℤ (List (String × ℤ)) :=
  match s.userFileCount.lookup shareCountKey with
  | none => .error (-1)
  | some sqlNum =>
    if (s.filePublicZset.card : ℤ) ≠ sqlNum ∧ s.shareFileList = [] then .error (-1)
    else if count < 0 then .error (-1)
    else match (s.refreshRanking.rankingPage start count).mapM s.refreshRanking.rankingItem with
      | none => .error (-1)
      | some items => .ok items

theorem mem_fileInfoOf {md5 : String} {r : FileInfo} :
    r ∈ s.fileInfoOf md5 ↔ r ∈ s.fileInfo ∧ r.md5 = md5 := by
  simp [fileInfoOf]

theorem fileInfoOf_eq_nil {md5 : String} :
    s.fileInfoOf md5 = [] ↔ ∀ r ∈ s.fileInfo, r.md5 ≠ md5 := by
  simp [fileInfoOf, List.filter_eq_nil_iff]

theorem userFilesNamed_eq_nil {user md5 filename : String} :
    s.userFilesNamed user md5 filename = [] ↔
      ∀ file ∈ s.userFileList, file.key ≠ (user, md5, filename) := by
  simp [userFilesNamed, UserFile.named_eq_key, List.filter_eq_nil_iff]

/-- A user gets a file, or nothing changes. -/
theorem gainFile_cases (user md5 now filename : String) :
    (∃ r ∈ s.fileInfo, r.md5 = md5 ∧
      (∀ file ∈ s.userFileList, file.key ≠ (user, md5, filename)) ∧
      s.gainFile user md5 now filename = s.addOwner (newUserFile user md5 now filename) r.count) ∨
    s.gainFile user md5 now filename = s := by
  cases hi : s.fileInfoOf md5 with
  | nil => right; simp [gainFile, hi]
  | cons r rows =>
    cases hu : s.userFilesNamed user md5 filename with
    | cons file files => right; simp [gainFile, hi, hu]
    | nil =>
      left
      obtain ⟨hr, hmd5⟩ := s.mem_fileInfoOf.mp (hi ▸ List.mem_cons_self)
      exact ⟨r, hr, hmd5, s.userFilesNamed_eq_nil.mp hu, by simp [gainFile, hi, hu]⟩

/-- `del_file` for a file the user does not list leaves the lists alone and
still releases a reference. -/
theorem loseFile_of_not_owned {user md5 filename : String}
    (hown : ∀ file ∈ s.userFileList, file.key ≠ (user, md5, filename)) (count : ℤ) :
    s.loseFile user md5 filename count = (s.decreaseCount user count).releaseReference md5 := by
  have hdrop : (s.decreaseCount user count).dropUserFile user md5 filename =
      s.decreaseCount user count := by
    unfold dropUserFile
    rw [UserFile.named_eq_key, deleteWhere_of_none (by simpa [decreaseCount] using hown)]
  rw [loseFile, hdrop]

theorem countOf_of_not_mem {user : String} (h : user ∉ s.userFileCount) : s.countOf user = 0 := by
  rw [countOf, Finmap.lookup_eq_none.mpr h]
  rfl

theorem countOf_increaseCount (user user' : String) :
    (s.increaseCount user).countOf user' = s.countOf user' + if user = user' then 1 else 0 := by
  by_cases hu : user = user'
  · subst hu
    simp [countOf, increaseCount, setUserFileCount]
  · simp [countOf, increaseCount, setUserFileCount, hu, Finmap.lookup_insert_of_ne _ (Ne.symm hu)]

theorem countOf_decreaseCount {user : String} {count : ℤ}
    (h : s.userFileCount.lookup user = some count) (user' : String) :
    (s.decreaseCount user count).countOf user' + (if user = user' then 1 else 0) =
      s.countOf user' := by
  by_cases hu : user = user'
  · subst hu
    by_cases hc : count = 1 <;> simp [countOf, decreaseCount, h, hc]
  · by_cases hc : count = 1 <;>
      simp [countOf, decreaseCount, hu, hc, Finmap.lookup_insert_of_ne _ (Ne.symm hu),
        Finmap.lookup_erase_ne (Ne.symm hu)]

theorem releaseReference_userFileList (md5 : String) :
    (s.releaseReference md5).userFileList = s.userFileList := by
  unfold releaseReference
  split
  · rfl
  · split_ifs <;> rfl

theorem releaseReference_userFileCount (md5 : String) :
    (s.releaseReference md5).userFileCount = s.userFileCount := by
  unfold releaseReference
  split
  · rfl
  · split_ifs <;> rfl

theorem releaseReference_shareFileList (md5 : String) :
    (s.releaseReference md5).shareFileList = s.shareFileList := by
  unfold releaseReference
  split
  · rfl
  · split_ifs <;> rfl

theorem releaseReference_redis (md5 : String) :
    (s.releaseReference md5).filePublicZset = s.filePublicZset ∧
      (s.releaseReference md5).fileNameHash = s.fileNameHash := by
  unfold releaseReference
  split
  · exact ⟨rfl, rfl⟩
  · split_ifs <;> exact ⟨rfl, rfl⟩

section DeleteOwn

variable (user md5 filename : String)

theorem deleteOwn_shareFileList : (s.deleteOwn user md5 filename).shareFileList = s.shareFileList := by
  unfold deleteOwn
  split
  · rfl
  · rw [loseFile, releaseReference_shareFileList]
    rfl

theorem deleteOwn_userFileList :
    (s.deleteOwn user md5 filename).userFileList =
      if user ∈ s.userFileCount then
        deleteWhere (fun r => decide (r.key = (user, md5, filename))) s.userFileList
      else s.userFileList := by
  unfold deleteOwn
  cases hu : s.userFileCount.lookup user with
  | none => rw [if_neg (Finmap.lookup_eq_none.mp hu)]
  | some count =>
    simp only [loseFile, releaseReference_userFileList, if_pos (Finmap.mem_of_lookup_eq_some hu)]
    rw [dropUserFile, UserFile.named_eq_key]
    rfl

theorem countOf_deleteOwn (user' : String) :
    (s.deleteOwn user md5 filename).countOf user' +
        (if user = user' ∧ user ∈ s.userFileCount then 1 else 0) = s.countOf user' := by
  unfold deleteOwn
  cases hu : s.userFileCount.lookup user with
  | none => simp [Finmap.lookup_eq_none.mp hu]
  | some count =>
    have hend : (s.loseFile user md5 filename count).countOf user' =
        (s.decreaseCount user count).countOf user' := by
      rw [countOf, loseFile, releaseReference_userFileCount]
      rfl
    simp only [hend, Finmap.mem_of_lookup_eq_some hu, and_true]
    exact s.countOf_decreaseCount hu user'

/-- The tables after the share steps of `del_file`. -/
theorem unshareFile_tables (flag : Bool) (count : ℤ) :
    (s.unshareFile user md5 filename flag count).userFileList = s.userFileList ∧
      (s.unshareFile user md5 filename flag count).shareFileList =
        deleteWhere (fun r => decide (r.key = (user, md5, filename))) s.shareFileList ∧
      (s.unshareFile user md5 filename flag count).userFileCount =
        s.userFileCount.insert shareCountKey (count - 1) := by
  rw [← ShareFile.named_eq_key]
  cases flag <;> exact ⟨rfl, rfl, rfl⟩

/-- The tables that count, after `del_file` with its share flag set and a counter there. -/
theorem deleteShared_tables {count : ℤ}
    (hc : s.userFileCount.lookup shareCountKey = some count)
    (flag : Bool) :
    (s.deleteShared user md5 filename flag).userFileList =
        (if user = shareCountKey ∨ user ∈ s.userFileCount then
          deleteWhere (fun r => decide (r.key = (user, md5, filename))) s.userFileList
        else s.userFileList) ∧
      (s.deleteShared user md5 filename flag).shareFileList =
        deleteWhere (fun r => decide (r.key = (user, md5, filename))) s.shareFileList ∧
      (s.deleteShared user md5 filename flag).countOf shareCountKey +
        (if user = shareCountKey then 1 else 0) = s.countOf shareCountKey - 1 := by
  obtain ⟨hfiles, hshares, hcounts⟩ := s.unshareFile_tables user md5 filename flag count
  have hcount := (s.unshareFile user md5 filename flag count).countOf_deleteOwn user md5 filename
    shareCountKey
  have hstart : (s.unshareFile user md5 filename flag count).countOf shareCountKey =
      s.countOf shareCountKey - 1 := by
    simp [Store.countOf, hcounts, hc]
  have hmem : user ∈ (s.unshareFile user md5 filename flag count).userFileCount ↔
      user = shareCountKey ∨ user ∈ s.userFileCount := by
    rw [hcounts, Finmap.mem_insert]
  have hand : (user = shareCountKey ∧ (user = shareCountKey ∨ user ∈ s.userFileCount)) ↔
      user = shareCountKey := by tauto
  simp only [hstart, hmem, hand] at hcount
  simp only [Store.deleteShared, hc]
  refine ⟨?_, ?_, hcount⟩
  · rw [Store.deleteOwn_userFileList, hfiles]
    simp only [hmem]
  · rw [Store.deleteOwn_shareFileList, hshares]

theorem deleteOwn_redis :
    (s.deleteOwn user md5 filename).filePublicZset = s.filePublicZset ∧
      (s.deleteOwn user md5 filename).fileNameHash = s.fileNameHash := by
  unfold deleteOwn
  split
  · exact ⟨rfl, rfl⟩
  · exact releaseReference_redis _ md5

end DeleteOwn

/-- The redis steps of `pv_file` leave every table as it was. -/
theorem markRanking_tables (R : RedisServer) (md5 filename : String) (pv : ℤ) :
    (s.markRanking R md5 filename pv).shareFileList = s.shareFileList ∧
      (s.markRanking R md5 filename pv).userFileList = s.userFileList ∧
      (s.markRanking R md5 filename pv).userFileCount = s.userFileCount := by
  unfold markRanking
  split <;> exact ⟨rfl, rfl, rfl⟩

/-- The refresh of the redis keys leaves every table as it was. -/
theorem importRanking_tables (rows : List ShareFile) :
    (s.importRanking rows).shareFileList = s.shareFileList ∧
      (s.importRanking rows).userFileList = s.userFileList ∧
      (s.importRanking rows).userFileCount = s.userFileCount := by
  induction rows generalizing s with
  | nil => exact ⟨rfl, rfl, rfl⟩
  | cons row rows ih => exact ih _

theorem refreshRanking_tables :
    s.refreshRanking.shareFileList = s.shareFileList ∧
      s.refreshRanking.userFileList = s.userFileList ∧
      s.refreshRanking.userFileCount = s.userFileCount := by
  unfold refreshRanking
  split
  · exact ⟨rfl, rfl, rfl⟩
  · split_ifs
    · exact ⟨rfl, rfl, rfl⟩
    · exact s.clearRanking.importRanking_tables _

section Fields

variable (user md5 filename : String) (count : ℤ) (row : FileInfo) (file : UserFile)

@[simp] theorem decreaseCount_fileInfo : (s.decreaseCount user count).fileInfo = s.fileInfo := rfl

@[simp] theorem decreaseCount_userFileList :
    (s.decreaseCount user count).userFileList = s.userFileList := rfl

@[simp] theorem decreaseCount_objects : (s.decreaseCount user count).objects = s.objects := rfl

@[simp] theorem addNewFile_fileInfo : (s.addNewFile row file).fileInfo = s.fileInfo ++ [row] := rfl

@[simp] theorem addNewFile_userFileList :
    (s.addNewFile row file).userFileList = s.userFileList ++ [file] := rfl

@[simp] theorem addNewFile_objects : (s.addNewFile row file).objects = s.objects := rfl

@[simp] theorem addOwner_userFileList :
    (s.addOwner file count).userFileList = s.userFileList ++ [file] := rfl

@[simp] theorem addOwner_objects : (s.addOwner file count).objects = s.objects := rfl

end Fields

end Store

section Runs

variable (R : RedisServer) (s : Store)

@[simp] theorem servers_exec {β : Type} (c : Stmt β) : (servers R).exec c s = c.exec R s := rfl

/-- Only the head of a result set is looked at. -/
@[simp] theorem processResultOne_nil {α : Type} (save : Bool) :
    processResultOne (some ([] : List α)) save = .noRecord := rfl

@[simp] theorem processResultOne_cons {α : Type} (a : α) (rows : List α) :
    processResultOne (some (a :: rows)) true = .saved a := rfl

@[simp] theorem processResultOne_cons_unsaved {α : Type} (a : α) (rows : List α) :
    processResultOne (some (a :: rows)) false = .notSaved := rfl

theorem run_mysqlQuery (c : Stmt Bool) :
    run (servers R) (mysqlQuery c) s =
      (if (c.exec R s).1 then .ok () else .error (-1), (c.exec R s).2) := by
  rw [mysqlQuery, run_bind, run_issue]
  cases h : (Stmt.exec R c s).1 <;> simp [h, gotoEnd]

@[simp] theorem run_connectMysql : run (servers R) connectMysql s = (.ok (), s) := rfl

@[simp] theorem run_connectRedis : run (servers R) connectRedis s = (.ok (), s) := rfl

attribute [local simp] Stmt.exec

theorem run_increaseUserFileCount (user : String) :
    run (servers R) (increaseUserFileCount user) s = (.ok (), s.increaseCount user) := by
  rw [increaseUserFileCount, run_bind, run_issue]
  cases h : s.userFileCount.lookup user with
  | none =>
    have hu : user ∉ s.userFileCount := Finmap.lookup_eq_none.mp h
    simp [Stmt.exec, h, run_mysqlQuery, hu, Store.increaseCount, Store.countOf]
  | some count =>
    have hu : user ∈ s.userFileCount := Finmap.mem_of_lookup_eq_some h
    simp [Stmt.exec, h, run_mysqlQuery, hu, Store.increaseCount, Store.countOf]

theorem run_decreaseUserFileCount (user : String) :
    run (servers R) (decreaseUserFileCount user) s =
      match s.userFileCount.lookup user with
      | none => (.error (-1), s)
      | some count => (.ok (), s.decreaseCount user count) := by
  rw [decreaseUserFileCount, run_bind, run_issue]
  cases h : s.userFileCount.lookup user with
  | none => simp [Stmt.exec, h, gotoEnd]
  | some count =>
    have hu : user ∈ s.userFileCount := Finmap.mem_of_lookup_eq_some h
    by_cases hc : count = 1
    · simp [Stmt.exec, h, run_mysqlQuery, Store.decreaseCount, Store.dropUserFileCount, hc]
    · simp [Stmt.exec, h, run_mysqlQuery, hu, Store.decreaseCount, Store.setUserFileCount, hc]

theorem run_storeFileinfoToMysql (user filename md5 : String) (size : ℤ)
    (fileid fdfsFileUrl now : String) :
    run (servers R) (storeFileinfoToMysql user filename md5 size fileid fdfsFileUrl now) s =
      (.ok (), s.addNewFile (newFileInfo filename md5 size fileid fdfsFileUrl)
        (newUserFile user md5 now filename)) := by
  simp [storeFileinfoToMysql, run_bind, run_mysqlQuery, Stmt.exec, run_increaseUserFileCount,
    Store.addNewFile, newUserFile]

theorem run_addFileOwner (user md5 filename now : String) (count : ℤ) :
    run (servers R) (addFileOwner user md5 filename now count) s =
      (.ok (), s.addOwner (newUserFile user md5 now filename) count) := by
  simp [addFileOwner, run_bind, run_mysqlQuery, Stmt.exec, run_increaseUserFileCount,
    Store.addOwner, newUserFile]

theorem run_dealMd5 (user md5 filename now : String) :
    (run (servers R) (dealMd5 user md5 filename now) s).2 = s.gainFile user md5 now filename := by
  rw [dealMd5, run_bind, run_connectMysql]
  simp only [run_bind, run_issue, servers_exec, Stmt.exec]
  cases hi : s.fileInfoOf md5 with
  | nil => simp [Store.gainFile, hi, gotoEnd]
  | cons r rows =>
    simp only [List.map_cons, processResultOne_cons, run_bind, run_issue, servers_exec, Stmt.exec]
    cases hu : s.userFilesNamed user md5 filename with
    | nil => simp [Store.gainFile, hi, hu, run_addFileOwner]
    | cons file files => simp [Store.gainFile, hi, hu, gotoEnd]

theorem run_saveFile (user md5 filename now : String) :
    (run (servers R) (saveFile user md5 filename now) s).2 = s.gainFile user md5 now filename := by
  rw [saveFile, run_bind, run_connectMysql]
  simp only [run_bind, run_issue, servers_exec, Stmt.exec]
  cases hu : s.userFilesNamed user md5 filename with
  | cons file files =>
    cases hi : s.fileInfoOf md5 <;> simp [Store.gainFile, hi, hu, gotoEnd]
  | nil =>
    simp only [List.map_nil, processResultOne_nil, saveNewFile, run_bind, run_issue, servers_exec,
      Stmt.exec]
    cases hi : s.fileInfoOf md5 with
    | nil => simp [Store.gainFile, hi, hu, gotoEnd]
    | cons r rows => simp [Store.gainFile, hi, hu, run_addFileOwner]

theorem run_setRanking (score : ℤ) (fileid filename : String) :
    run (servers R) (setRanking score fileid filename) s =
      (.ok (), (s.zadd fileid score).hset fileid filename) := rfl

theorem run_shareFile (user md5 filename now : String) :
    (run (servers R) (shareFile user md5 filename now) s).2 =
      s.shareFile R user md5 now filename := by
  simp only [shareFile, run_bind, run_connectRedis, run_connectMysql, run_issue, servers_exec,
    Stmt.exec]
  rcases hz : R.zlexcount s.filePublicZset (md5 ++ filename) with _ | _ | n
  · cases hf : s.sharesOf md5 filename with
    | nil =>
      simp [Store.shareFile, Store.publish, newShareFile, hz, hf, run_bind, run_issue,
        run_setRanking, run_mysqlQuery, run_increaseUserFileCount, Stmt.exec]
    | cons r rows =>
      simp [Store.shareFile, hz, hf, run_bind, run_issue, Stmt.exec, gotoEnd]
  · simp [Store.shareFile, hz, gotoEnd]
  · have h1 : ((n + 1 + 1 : ℕ) : ℤ) ≠ 1 := by omega
    have h0 : ((n + 1 + 1 : ℕ) : ℤ) ≠ 0 := by omega
    rw [if_neg h1, if_neg h0]
    simp [Store.shareFile, hz, gotoEnd]

theorem run_cancelShareFile (user md5 filename : String) :
    (run (servers R) (cancelShareFile user md5 filename) s).2 =
      s.cancelShareFile user md5 filename := by
  simp only [cancelShareFile, run_bind, run_connectRedis, run_connectMysql, run_mysqlQuery,
    run_decreaseUserFileCount, Stmt.exec, if_true]
  cases hc : s.userFileCount.lookup shareCountKey with
  | none => simp [Store.cancelShareFile, Store.setSharedStatus, hc]
  | some count =>
    have hset : (s.setSharedStatus user md5 filename 0).userFileCount.lookup shareCountKey =
        some count := hc
    simp only [Store.cancelShareFile, Store.withdraw, hset, hc]
    generalize ((s.setSharedStatus user md5 filename 0).decreaseCount shareCountKey
      count).dropShareFile user md5 filename = t
    by_cases hz : md5 ++ filename ∈ t.filePublicZset
    · simp [hz, Store.zrem, Store.hdel]
    · simp [hz, Store.zrem]

theorem run_pvFile (md5 filename : String) :
    (run (servers R) (pvFile md5 filename) s).2 = s.pvFile R md5 filename := by
  simp only [pvFile, run_bind, run_connectRedis, run_connectMysql, run_issue, servers_exec,
    Stmt.exec]
  cases hf : s.sharesOf md5 filename with
  | nil => simp [Store.pvFile, hf, gotoEnd]
  | cons r rows =>
    have hset : (s.setSharePv md5 filename (r.pv + 1)).filePublicZset = s.filePublicZset := rfl
    simp only [List.map_cons, processResultOne_cons, run_bind, run_mysqlQuery, run_issue,
      servers_exec, Stmt.exec, if_true, Store.pvFile, hf, Store.markRanking, hset]
    rcases hz : R.zlexcount s.filePublicZset (md5 ++ filename) with _ | _ | n
    · simp [run_setRanking]
    · simp [run_bind, run_issue, Stmt.exec, gotoEnd, hset]
    · have h1 : ((n + 1 + 1 : ℕ) : ℤ) ≠ 1 := by omega
      have h0 : ((n + 1 + 1 : ℕ) : ℤ) ≠ 0 := by omega
      rw [if_neg h1, if_neg h0]
      simp [gotoEnd]

/-- Deleting the rows of an md5 makes the count written just before irrelevant. -/
theorem dropFileInfo_setFileInfoCount (md5 : String) (count : ℤ) :
    (s.setFileInfoCount md5 count).dropFileInfo md5 = s.dropFileInfo md5 := by
  simp only [Store.dropFileInfo, Store.setFileInfoCount]
  rw [deleteWhere_updateWhere (by exact fun r h => h)]

theorem fileInfoOf_setFileInfoCount (md5 : String) (count : ℤ) :
    (s.setFileInfoCount md5 count).fileInfoOf md5 =
      (s.fileInfoOf md5).map (fun r => { r with count := count }) := by
  simp only [Store.fileInfoOf, Store.setFileInfoCount]
  rw [filter_updateWhere (by exact fun r h => rfl), updateWhere]
  refine List.map_congr_left (fun r hr => ?_)
  rw [if_pos (List.mem_filter.mp hr).2]

theorem run_delFileReference (md5 : String) :
    (run (servers R) (delFileReference md5) s).2 = s.releaseReference md5 := by
  simp only [delFileReference, run_bind, run_issue, servers_exec, Stmt.exec]
  cases hi : s.fileInfoOf md5 with
  | nil => simp [Store.releaseReference, hi, gotoEnd]
  | cons r rows =>
    simp only [List.map_cons, processResultOne_cons, run_bind, run_mysqlQuery, Stmt.exec, if_true,
      Store.releaseReference, hi]
    by_cases hc : r.count = 1
    · simp [hc, run_bind, run_issue, run_mysqlQuery, Stmt.exec, fileInfoOf_setFileInfoCount, hi,
        dropFileInfo_setFileInfoCount]
    · have hc' : r.count - 1 ≠ 0 := by omega
      simp [hc, hc']

theorem run_delFileShareFlags (user md5 filename : String) :
    run (servers R) (delFileShareFlags user md5 filename) s =
      match s.shareFlags R user md5 filename with
      | none => (.error (-1), s)
      | some flags => (.ok flags, s) := by
  simp only [delFileShareFlags, run_bind, run_issue, servers_exec, Stmt.exec, Store.shareFlags]
  rcases hz : R.zlexcount s.filePublicZset (md5 ++ filename) with _ | _ | n
  · cases hf : s.userFilesNamed user md5 filename <;>
      simp [hf, run_bind, run_issue, Stmt.exec]
  · simp
  · have h1 : ((n + 1 + 1 : ℕ) : ℤ) ≠ 1 := by omega
    have h0 : ((n + 1 + 1 : ℕ) : ℤ) ≠ 0 := by omega
    rw [if_neg h1, if_neg h0]
    simp [gotoEnd]

theorem run_delFileUnshare (user md5 filename : String) (flag : Bool) :
    run (servers R) (delFileUnshare user md5 filename flag) s =
      match s.userFileCount.lookup shareCountKey with
      | none => (.error (-1), s.dropShareFile user md5 filename)
      | some count => (.ok (), s.unshareFile user md5 filename flag count) := by
  simp only [delFileUnshare, run_bind, run_mysqlQuery, run_issue, servers_exec, Stmt.exec, if_true,
    Store.unshareFile]
  cases hc : s.userFileCount.lookup shareCountKey with
  | none => simp [Store.dropShareFile, hc, gotoEnd]
  | some count =>
    have hu : shareCountKey ∈ s.userFileCount := Finmap.mem_of_lookup_eq_some hc
    cases flag <;>
      simp [Store.dropShareFile, hc, hu, run_bind, run_mysqlQuery, run_issue, Stmt.exec]

/-- `del_file` from the count of the user's files on. -/
theorem run_deleteOwn (user md5 filename : String) :
    (run (servers R) (do
      decreaseUserFileCount user
      mysqlQuery (.deleteUserFile user md5 filename)
      delFileReference md5) s).2 = s.deleteOwn user md5 filename := by
  simp only [run_bind, run_decreaseUserFileCount, Store.deleteOwn]
  cases hu : s.userFileCount.lookup user with
  | none => rfl
  | some count =>
    simp [run_mysqlQuery, Stmt.exec, run_delFileReference, Store.loseFile]

theorem run_delFile (user md5 filename : String) :
    (run (servers R) (delFile user md5 filename) s).2 = s.delFile R user md5 filename := by
  simp only [delFile, run_bind, run_connectRedis, run_connectMysql, run_delFileShareFlags,
    Store.delFile]
  cases hf : s.shareFlags R user md5 filename with
  | none => rfl
  | some flags =>
    simp only [delFileSteps]
    by_cases hs : flags.1 = 1
    · simp only [hs, if_true, Store.deleteShared]
      rw [run_bind, run_delFileUnshare]
      cases hc : s.userFileCount.lookup shareCountKey with
      | none => rfl
      | some count => exact run_deleteOwn R _ user md5 filename
    · simp [hs, run_deleteOwn]

theorem run_importShareFiles (rows : List ShareFile) :
    run (servers R) (importShareFiles rows) s = (.ok (), s.importRanking rows) := by
  induction rows generalizing s with
  | nil => rfl
  | cons row rows ih =>
    simp only [importShareFiles, run_bind, run_issue, servers_exec, Stmt.exec, ih]
    rfl

theorem run_rankingItems (values : List String) :
    run (servers R) (rankingItems values) s =
      (match values.mapM s.rankingItem with
        | none => .error (-1)
        | some items => .ok items, s) := by
  induction values with
  | nil => rfl
  | cons fileid rest ih =>
    simp only [rankingItems, run_bind, run_issue, servers_exec, Stmt.exec, List.mapM_cons,
      Store.rankingItem]
    cases hh : s.fileNameHash.lookup fileid with
    | none => rfl
    | some filename =>
      cases hz : s.filePublicZset.score fileid with
      | none => simp [run_bind, run_issue, Stmt.exec, hz, gotoEnd]
      | some score =>
        by_cases hs : score = -1
        · simp [hs, run_bind, run_issue, Stmt.exec, hz, gotoEnd]
        · simp only [run_bind, run_issue, servers_exec, Stmt.exec, hz, Option.getD_some, hs,
            if_false, ih]
          cases rest.mapM s.rankingItem <;> rfl

theorem run_rankingPage (start count : ℤ) :
    run (servers R) (ropZsetZrevrange start (int32 (start + count - 1))) s =
      (.ok (s.rankingPage start count), s) := rfl

theorem shareFilesByPv_eq_nil {rows : List ShareFile} : shareFilesByPv rows = [] ↔ rows = [] := by
  rw [← List.length_eq_zero_iff, shareFilesByPv, List.length_insertionSort, List.length_eq_zero_iff]

/-- The part of `get_ranking_filelist` after the refresh. -/
theorem run_rankingRest (start count : ℤ) :
    run (servers R) (do
      if count < 0 then gotoEnd (-1)
      else
        let values ← ropZsetZrevrange start (int32 (start + count - 1))
        rankingItems values) s =
      (if count < 0 then .error (-1)
        else match (s.rankingPage start count).mapM s.rankingItem with
          | none => .error (-1)
          | some items => .ok items, s) := by
  by_cases hcount : count < 0
  · simp [hcount, gotoEnd]
  · simp only [hcount, if_false, run_bind, run_rankingPage, run_rankingItems]

theorem run_getRankingFilelist (start count : ℤ) :
    run (servers R) (getRankingFilelist start count) s =
      (s.rankingAnswer start count, s.refreshRanking) := by
  simp only [getRankingFilelist, run_bind, run_connectRedis, run_connectMysql, run_issue,
    servers_exec, Stmt.exec, Store.refreshRanking, Store.rankingAnswer]
  cases hc : s.userFileCount.lookup shareCountKey with
  | none => rfl
  | some sqlNum =>
    have hne : ((s.filePublicZset.card : ℕ) : ℤ) ≠ -1 := by omega
    simp only [Option.toList_some, processResultOne_cons, run_bind, run_issue, servers_exec,
      Stmt.exec, hne, if_false]
    by_cases hn : (s.filePublicZset.card : ℤ) = sqlNum
    · simp [hn, run_rankingRest]
    · simp only [hn, ne_eq, not_false_eq_true, if_true, true_and, if_false, run_bind, run_issue,
        servers_exec, Stmt.exec]
      cases hrows : shareFilesByPv s.shareFileList with
      | nil =>
        rw [if_pos (shareFilesByPv_eq_nil.mp hrows)]
        rfl
      | cons row rows =>
        have hnil : s.shareFileList ≠ [] := by
          intro h
          rw [h] at hrows
          cases hrows
        simp only [run_bind, run_importShareFiles, run_rankingRest, if_neg hnil]
        rfl

end Runs

end CServer.CloudDisk
