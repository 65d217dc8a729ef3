import CServer.CloudDisk.Effects
import CServer.Foundation.Faults

/-!
# Handlers whose statements may fail

A handler opens no transaction and returns its success code whenever it reaches
its end. For each of the handlers that change the tables, this module says which
failing statements leave the answer honest: a success means that every update
was applied, a failure that MySQL and redis are as before. Positions count the
statements a handler sends, `set names` included.
-/
namespace CServer.CloudDisk

open Program Rows

/-- MySQL and redis are the same in both states. -/
def Store.SameData (t s : Store) : Prop := { t with objects := s.objects } = s

/-- The answer against what was done: `applied` holds of the states with every update. -/
def Honest (s : Store) (applied : Store → Prop) (r : Except ℤ Unit) (t : Store) (_ : ℕ) : Prop :=
  (retOf r = 0 → applied t) ∧ (retOf r ≠ 0 → t.SameData s)

section Honest

variable {s t : Store} {applied : Store → Prop} {i : ℕ}

theorem Store.SameData.refl (s : Store) : s.SameData s := rfl

theorem not_sameData_of_countOf (user : String) (h : t.countOf user ≠ s.countOf user) :
    ¬ t.SameData s := by
  intro hsame
  apply h
  rw [← hsame]
  rfl

theorem not_sameData_of_userFileList (h : t.userFileList ≠ s.userFileList) : ¬ t.SameData s := by
  intro hsame
  apply h
  rw [← hsame]

theorem not_sameData_of_fileInfo (h : t.fileInfo ≠ s.fileInfo) : ¬ t.SameData s := by
  intro hsame
  apply h
  rw [← hsame]

theorem not_sameData_of_shareFileList (h : t.shareFileList ≠ s.shareFileList) : ¬ t.SameData s := by
  intro hsame
  apply h
  rw [← hsame]

@[simp] theorem honest_ok : Honest s applied (.ok ()) t i ↔ applied t := by
  simp [Honest, retOf]

@[simp] theorem honest_error : Honest s applied (.error (-1)) t i ↔ t.SameData s := by
  simp [Honest, retOf]

@[simp] theorem honest_refused : Honest s applied (.error (-2)) t i ↔ t.SameData s := by
  simp [Honest, retOf]

@[simp] theorem honest_missing : Honest s applied (.error (-3)) t i ↔ t.SameData s := by
  simp [Honest, retOf]

end Honest

attribute [local simp] Stmt.failed

section Rules

variable {R : RedisServer} {fails : ℕ → Bool} {n : ℕ} {s : Store} {α β : Type}

theorem wp_issue_bind {c : Stmt β} {f : β → Program Stmt ℤ α}
    {Q : Except ℤ α → Store → ℕ → Prop} :
    wp (servers R) fails n (issue c >>= f) s Q ↔
      if fails n then wp (servers R) fails (n + 1) (f c.failed) s Q
      else wp (servers R) fails (n + 1) (f (c.exec R s).1) (c.exec R s).2 Q := by
  rw [wp_bind, wp_issue]
  rfl

theorem wp_mysqlQuery {c : Stmt Bool} {Q : Except ℤ Unit → Store → ℕ → Prop} :
    wp (servers R) fails n (mysqlQuery c) s Q ↔
      if fails n then Q (if c.failed then .ok () else .error (-1)) s (n + 1)
      else Q (if (c.exec R s).1 then .ok () else .error (-1)) (c.exec R s).2 (n + 1) := by
  rw [mysqlQuery, wp_issue_bind]
  split_ifs <;> simp_all [gotoEnd, wp_done, wp_exit]

theorem wp_mysqlQuery_bind {c : Stmt Bool} {f : Unit → Program Stmt ℤ α}
    {Q : Except ℤ α → Store → ℕ → Prop} :
    wp (servers R) fails n (mysqlQuery c >>= f) s Q ↔
      if fails n then
        if c.failed then wp (servers R) fails (n + 1) (f ()) s Q else Q (.error (-1)) s (n + 1)
      else if (c.exec R s).1 then wp (servers R) fails (n + 1) (f ()) (c.exec R s).2 Q
        else Q (.error (-1)) (c.exec R s).2 (n + 1) := by
  rw [wp_bind, wp_mysqlQuery]
  split_ifs <;> rfl

theorem wp_connectRedis_bind {f : Unit → Program Stmt ℤ α}
    {Q : Except ℤ α → Store → ℕ → Prop} :
    wp (servers R) fails n (connectRedis >>= f) s Q ↔
      if fails n then Q (.error (-1)) s (n + 1) else wp (servers R) fails (n + 1) (f ()) s Q := by
  rw [connectRedis, wp_mysqlQuery_bind]
  simp [Stmt.exec]

theorem wp_connectMysql_bind {f : Unit → Program Stmt ℤ α}
    {Q : Except ℤ α → Store → ℕ → Prop} :
    wp (servers R) fails n (connectMysql >>= f) s Q ↔
      if fails n then Q (.error (-1)) s (n + 1) else wp (servers R) fails (n + 2) (f ()) s Q := by
  rw [connectMysql, wp_bind, wp_mysqlQuery_bind]
  simp [Stmt.exec, wp_issue_bind, wp_done]

theorem wp_increaseUserFileCount {user : String} {Q : Except ℤ Unit → Store → ℕ → Prop} :
    wp (servers R) fails n (increaseUserFileCount user) s Q ↔
      if fails (n + 1) then Q (.error (-1)) s (n + 2)
      else if fails n then Q (.ok ()) s (n + 2)
      else Q (.ok ()) (s.increaseCount user) (n + 2) := by
  rw [increaseUserFileCount, wp_issue_bind]
  cases h : s.userFileCount.lookup user with
  | none =>
    have hu : user ∉ s.userFileCount := Finmap.lookup_eq_none.mp h
    by_cases hn : fails n = true <;> by_cases hn' : fails (n + 1) = true <;>
      simp [hn, hn', h, hu, wp_issue_bind, wp_mysqlQuery, Stmt.exec, processResultOne, gotoEnd,
        wp_done, wp_exit, Store.increaseCount, Store.countOf]
  | some count =>
    have hu : user ∈ s.userFileCount := Finmap.mem_of_lookup_eq_some h
    by_cases hn : fails n = true <;> by_cases hn' : fails (n + 1) = true <;>
      simp [hn, hn', h, hu, wp_issue_bind, wp_mysqlQuery, Stmt.exec, processResultOne, gotoEnd,
        wp_done, wp_exit, Store.increaseCount, Store.countOf]

theorem wp_increaseUserFileCount_bind {user : String} {f : Unit → Program Stmt ℤ α}
    {Q : Except ℤ α → Store → ℕ → Prop} :
    wp (servers R) fails n (increaseUserFileCount user >>= f) s Q ↔
      if fails (n + 1) then Q (.error (-1)) s (n + 2)
      else if fails n then wp (servers R) fails (n + 2) (f ()) s Q
      else wp (servers R) fails (n + 2) (f ()) (s.increaseCount user) Q := by
  rw [wp_bind, wp_increaseUserFileCount]

theorem wp_decreaseUserFileCount_bind {user : String} {f : Unit → Program Stmt ℤ α}
    {Q : Except ℤ α → Store → ℕ → Prop} :
    wp (servers R) fails n (decreaseUserFileCount user >>= f) s Q ↔
      match s.userFileCount.lookup user with
      | none => Q (.error (-1)) s (n + 1)
      | some count =>
        if fails n then Q (.error (-1)) s (n + 1)
        else if fails (n + 1) then Q (.error (-1)) s (n + 2)
        else wp (servers R) fails (n + 2) (f ()) (s.decreaseCount user count) Q := by
  rw [wp_bind, decreaseUserFileCount, wp_issue_bind]
  cases h : s.userFileCount.lookup user with
  | none =>
    by_cases hn : fails n = true <;>
      simp [hn, h, Stmt.exec, processResultOne, gotoEnd, wp_exit]
  | some count =>
    have hu : user ∈ s.userFileCount := Finmap.mem_of_lookup_eq_some h
    by_cases hc : count = 1 <;> by_cases hn : fails n = true <;>
      by_cases hn' : fails (n + 1) = true <;>
      simp [hc, hn, hn', h, hu, wp_mysqlQuery, Stmt.exec, processResultOne, gotoEnd, wp_exit,
        Store.decreaseCount, Store.dropUserFileCount, Store.setUserFileCount]

theorem wp_delFileReference {md5 : String} {Q : Except ℤ Unit → Store → ℕ → Prop} :
    wp (servers R) fails n (delFileReference md5) s Q ↔
      match s.fileInfoOf md5 with
      | [] => Q (.error (-1)) s (n + 1)
      | r :: _ =>
        if fails n then Q (.error (-1)) s (n + 1)
        else if fails (n + 1) then Q (.error (-1)) s (n + 2)
        else if r.count = 1 then
          if fails (n + 2) then Q (.error (-1)) (s.setFileInfoCount md5 0) (n + 3)
          else if fails (n + 3) then Q (.error (-1)) (s.setFileInfoCount md5 0) (n + 4)
          else if fails (n + 4) then Q (.error (-1)) (s.dropFileInfo md5) (n + 5)
          else Q (.ok ()) (s.releaseReference md5) (n + 5)
        else Q (.ok ()) (s.releaseReference md5) (n + 2) := by
  rw [delFileReference, wp_issue_bind]
  cases h : s.fileInfoOf md5 with
  | nil =>
    by_cases hn : fails n = true <;>
      simp [hn, h, Stmt.exec, processResultOne, gotoEnd, wp_exit]
  | cons r rows =>
    by_cases hn : fails n = true
    · simp [hn, processResultOne, gotoEnd, wp_exit]
    · by_cases hn' : fails (n + 1) = true
      · simp [hn, hn', h, wp_mysqlQuery_bind, Stmt.exec]
      · by_cases hc : r.count = 1
        · by_cases h2 : fails (n + 1 + 1) = true <;> by_cases h3 : fails (n + 1 + 1 + 1) = true <;>
            by_cases h4 : fails (n + 1 + 1 + 1 + 1) = true <;>
            simp [hn, hn', h, hc, h2, h3, h4, wp_mysqlQuery_bind, wp_mysqlQuery, wp_issue_bind,
              Stmt.exec, processResultOne, gotoEnd, wp_exit, fileInfoOf_setFileInfoCount,
              dropFileInfo_setFileInfoCount, Store.releaseReference]
        · have hc' : r.count - 1 ≠ 0 := by omega
          simp [hn, hn', h, hc, hc', wp_mysqlQuery_bind, Stmt.exec, wp_done, Store.releaseReference]

/-- The updates of `save_file` and `deal_md5`, write by write. -/
theorem wp_addFileOwner {user md5 filename now : String} {count : ℤ}
    {Q : Except ℤ Unit → Store → ℕ → Prop} :
    wp (servers R) fails n (addFileOwner user md5 filename now count) s Q ↔
      if fails n then Q (.error (-1)) s (n + 1)
      else if fails (n + 1) then Q (.error (-1)) (s.setFileInfoCount md5 (count + 1)) (n + 2)
      else if fails (n + 3) then
        Q (.error (-1)) ((s.setFileInfoCount md5 (count + 1)).addUserFile
          (newUserFile user md5 now filename)) (n + 4)
      else if fails (n + 2) then
        Q (.ok ()) ((s.setFileInfoCount md5 (count + 1)).addUserFile
          (newUserFile user md5 now filename)) (n + 4)
      else Q (.ok ()) (s.addOwner (newUserFile user md5 now filename) count) (n + 4) := by
  simp only [addFileOwner, wp_mysqlQuery_bind, wp_increaseUserFileCount, Stmt.failed, Stmt.exec,
    if_true, Bool.false_eq_true, if_false]
  rfl

/-- A score and a name written to redis, each of them possibly lost. -/
def Store.redisWrites (s : Store) (lostScore lostName : Bool) (fileid : String) (score : ℤ)
    (filename : String) : Store :=
  { s with
    filePublicZset := if lostScore then s.filePublicZset else s.filePublicZset.add fileid score
    fileNameHash := if lostName then s.fileNameHash else s.fileNameHash.insert fileid filename }

theorem wp_setRanking {fileid filename : String} {score : ℤ}
    {Q : Except ℤ Unit → Store → ℕ → Prop} :
    wp (servers R) fails n (setRanking score fileid filename) s Q ↔
      Q (.ok ()) (s.redisWrites (fails n) (fails (n + 1)) fileid score filename) (n + 2) := by
  simp only [setRanking, wp_issue_bind, Stmt.exec, Store.redisWrites]
  by_cases hn : fails n = true <;> by_cases hn' : fails (n + 1) = true <;>
    simp [hn, hn', wp_done, Store.zadd, Store.hset]

end Rules

section Changes

variable {s t : Store}

/-- Lost writes do not matter when redis has the entries already. -/
theorem redisWrites_eq_iff {lostScore lostName : Bool} {fileid filename : String} {score : ℤ} :
    s.redisWrites lostScore lostName fileid score filename =
        (s.zadd fileid score).hset fileid filename ↔
      (lostScore → s.filePublicZset.score fileid = some score) ∧
        (lostName → s.fileNameHash.lookup fileid = some filename) := by
  have hscore : s.filePublicZset.score fileid = some score ↔
      s.filePublicZset.add fileid score = s.filePublicZset := by
    refine ⟨ScoreSet.add_of_score _, fun he => ?_⟩
    rw [← he, ScoreSet.score_add, if_pos rfl]
  have hname : s.fileNameHash.lookup fileid = some filename ↔
      s.fileNameHash.insert fileid filename = s.fileNameHash := by
    refine ⟨fun he => Finmap.ext_lookup fun key => ?_, fun he => ?_⟩
    · by_cases hk : key = fileid
      · rw [hk, Finmap.lookup_insert, he]
      · exact Finmap.lookup_insert_of_ne _ hk
    · rw [← he, Finmap.lookup_insert]
  rw [hscore, hname]
  cases lostScore <;> cases lostName <;>
    simp [Store.redisWrites, Store.zadd, Store.hset, eq_comm]

theorem setFileInfoCount_ne {md5 : String} {r : FileInfo} {rows : List FileInfo} {count : ℤ}
    (hi : s.fileInfoOf md5 = r :: rows) (hc : count ≠ r.count) :
    (s.setFileInfoCount md5 count).fileInfo ≠ s.fileInfo := by
  intro he
  have hrows : (s.setFileInfoCount md5 count).fileInfoOf md5 = s.fileInfoOf md5 := by
    rw [Store.fileInfoOf, he]
    rfl
  rw [fileInfoOf_setFileInfoCount, hi, List.map_cons, List.cons.injEq] at hrows
  exact hc (congrArg FileInfo.count hrows.1)

theorem addUserFile_ne (file : UserFile) : (t.addUserFile file).userFileList ≠ t.userFileList := by
  simp [Store.addUserFile]

/-- A status that is there already is no change. -/
theorem setSharedStatus_sameData_iff {user md5 filename : String} {status : ℤ} :
    (s.setSharedStatus user md5 filename status).SameData s ↔
      ∀ file ∈ s.userFileList, file.key = (user, md5, filename) → file.sharedStatus = status := by
  have hlist : (s.setSharedStatus user md5 filename status).SameData s ↔
      (s.setSharedStatus user md5 filename status).userFileList = s.userFileList := by
    refine ⟨fun h => congrArg Store.userFileList h, fun h => ?_⟩
    unfold Store.SameData
    rw [Store.setSharedStatus] at h ⊢
    rw [h]
  rw [hlist, Store.setSharedStatus, UserFile.named_eq_key, updateWhere_eq_self_iff]
  refine forall₂_congr fun file _ => ?_
  rw [decide_eq_true_iff]
  refine imp_congr_right fun _ => ⟨fun h => by rw [← h], fun h => by rw [← h]⟩

theorem not_sameData_of_decreased {user : String} {count : ℤ}
    (hc : s.userFileCount.lookup user = some count)
    (ht : t.userFileCount = (s.decreaseCount user count).userFileCount) : ¬ t.SameData s := by
  have hcount := s.countOf_decreaseCount hc user
  refine not_sameData_of_countOf user ?_
  rw [if_pos rfl] at hcount
  simp only [Store.countOf] at hcount ⊢
  rw [ht]
  omega

theorem increaseCount_ne (user : String) : t ≠ t.increaseCount user := by
  intro he
  have hcount := t.countOf_increaseCount user user
  rw [← he, if_pos rfl] at hcount
  omega

end Changes

section Handlers

variable {R : RedisServer} {fails : ℕ → Bool} {n : ℕ} {s : Store}
  {user md5 filename now : String}

/-- The three updates are all or nothing when the first one fails, or none of
them and not the read of the count. -/
theorem honest_addFileOwner {r : FileInfo} {rows : List FileInfo} {applied : Store → Prop}
    (hi : s.fileInfoOf md5 = r :: rows)
    (happlied : ∀ t, applied t ↔ t = s.addOwner (newUserFile user md5 now filename) r.count) :
    wp (servers R) fails n (addFileOwner user md5 filename now r.count) s (Honest s applied) ↔
      fails n ∨ (fails (n + 1) = false ∧ fails (n + 2) = false ∧ fails (n + 3) = false) := by
  have hfirst : ¬ (s.setFileInfoCount md5 (r.count + 1)).SameData s :=
    not_sameData_of_fileInfo (setFileInfoCount_ne hi (by omega))
  have hsecond : ¬ ((s.setFileInfoCount md5 (r.count + 1)).addUserFile
      (newUserFile user md5 now filename)).SameData s :=
    not_sameData_of_userFileList (addUserFile_ne _)
  have hthird : ¬ applied ((s.setFileInfoCount md5 (r.count + 1)).addUserFile
      (newUserFile user md5 now filename)) := by
    rw [happlied]
    exact increaseCount_ne user
  have hall : applied (s.addOwner (newUserFile user md5 now filename) r.count) := by
    rw [happlied]
  rw [wp_addFileOwner]
  simp only [honest_ok, honest_error]
  split_ifs <;> simp_all [Store.SameData.refl]

/-- Every update of `save_file` and `deal_md5`: the md5 is stored and has one more owner. -/
def Store.OwnerAdded (s : Store) (file : UserFile) (t : Store) : Prop :=
  ∃ r rows, s.fileInfoOf file.md5 = r :: rows ∧ t = s.addOwner file r.count

theorem ownerAdded_iff {r : FileInfo} {rows : List FileInfo} (hi : s.fileInfoOf md5 = r :: rows)
    (t : Store) : s.OwnerAdded (newUserFile user md5 now filename) t ↔
      t = s.addOwner (newUserFile user md5 now filename) r.count := by
  constructor
  · rintro ⟨r', rows', hi', ht⟩
    have hr : r = r' := (List.cons.inj (hi.symm.trans hi')).1
    rw [ht, hr]
  · intro ht
    exact ⟨r, rows, hi, ht⟩

/-- Positions of `save_file`: 0 connect, 2 the user's file, 3 and 4 the reference
count, 5 the user's row, 6 and 7 the user's count. -/
def SaveHarmless (fails : ℕ → Bool) (s : Store) (user md5 filename : String) : Prop :=
  fails 0 ∨ (fails 2 = false ∧ s.userFilesNamed user md5 filename ≠ []) ∨ fails 3 ∨
    s.fileInfoOf md5 = [] ∨ fails 4 ∨ (fails 5 = false ∧ fails 6 = false ∧ fails 7 = false)

theorem saveFile_honest_iff :
    wp (servers R) fails 0 (saveFile user md5 filename now) s
        (Honest s (s.OwnerAdded (newUserFile user md5 now filename))) ↔
      SaveHarmless fails s user md5 filename := by
  unfold SaveHarmless
  rw [saveFile, wp_connectMysql_bind]
  by_cases h0 : fails 0 = true
  · simp [h0, Store.SameData.refl]
  rw [if_neg h0, wp_issue_bind]
  -- a failed look for the user's file goes on as if there were none
  by_cases hrefused : fails 2 = false ∧ s.userFilesNamed user md5 filename ≠ []
  · obtain ⟨h2, hu⟩ := hrefused
    obtain ⟨file, files, hu⟩ := List.exists_cons_of_ne_nil hu
    simp [h2, hu, Stmt.exec, gotoEnd, wp_exit, Store.SameData.refl]
  · have hcond : (fails 0 = true ∨ (fails 2 = false ∧ s.userFilesNamed user md5 filename ≠ []) ∨
        fails 3 = true ∨ s.fileInfoOf md5 = [] ∨ fails 4 = true ∨
          (fails 5 = false ∧ fails 6 = false ∧ fails 7 = false)) ↔
        (fails 3 = true ∨ s.fileInfoOf md5 = [] ∨ fails 4 = true ∨
          (fails 5 = false ∧ fails 6 = false ∧ fails 7 = false)) := by tauto
    have hread : wp (servers R) fails 3 (saveNewFile user md5 filename now) s
        (Honest s (s.OwnerAdded (newUserFile user md5 now filename))) ↔
          (fails 3 = true ∨ s.fileInfoOf md5 = [] ∨ fails 4 = true ∨
            (fails 5 = false ∧ fails 6 = false ∧ fails 7 = false)) := by
      rw [saveNewFile, wp_issue_bind]
      by_cases h3 : fails 3 = true
      · simp [h3, processResultOne, gotoEnd, wp_exit, Store.SameData.refl]
      · cases hi : s.fileInfoOf md5 with
        | nil => simp [h3, Stmt.exec, hi, gotoEnd, wp_exit, Store.SameData.refl]
        | cons r rows => simp [h3, Stmt.exec, hi, honest_addFileOwner hi (ownerAdded_iff hi)]
    rw [hcond]
    by_cases h2 : fails 2 = true
    · rw [if_pos h2]
      exact hread
    · have hu : s.userFilesNamed user md5 filename = [] := by
        by_contra hu
        exact hrefused ⟨by simpa using h2, hu⟩
      rw [if_neg h2, Stmt.exec, hu]
      exact hread

/-- Positions of `deal_md5`: 0 connect, 2 the reference count, 3 the user's file,
4 the new reference count, 5 the user's row, 6 and 7 the user's count. -/
def DealHarmless (fails : ℕ → Bool) (s : Store) (user md5 filename : String) : Prop :=
  fails 0 ∨ (fails 2 = false ∧ (s.fileInfoOf md5 = [] ∨
    (fails 3 = false ∧ s.userFilesNamed user md5 filename ≠ []) ∨ fails 4 ∨
      (fails 5 = false ∧ fails 6 = false ∧ fails 7 = false)))

/-- Nothing done is not everything done. -/
theorem not_ownerAdded_self : ¬ s.OwnerAdded (newUserFile user md5 now filename) s := by
  rintro ⟨r, rows, -, he⟩
  have hlen := congrArg (fun t => t.userFileList.length) he
  simp at hlen

theorem dealMd5_honest_iff :
    wp (servers R) fails 0 (dealMd5 user md5 filename now) s
        (Honest s (s.OwnerAdded (newUserFile user md5 now filename))) ↔
      DealHarmless fails s user md5 filename := by
  unfold DealHarmless
  rw [dealMd5, wp_connectMysql_bind]
  by_cases h0 : fails 0 = true
  · simp [h0, Store.SameData.refl]
  rw [if_neg h0, wp_issue_bind]
  by_cases h2 : fails 2 = true
  · -- the failed query is neither result nor no result, and the end is reached
    simp [h0, h2, processResultOne, wp_done, not_ownerAdded_self]
  · cases hi : s.fileInfoOf md5 with
    | nil => simp [h2, Stmt.exec, hi, gotoEnd, wp_exit, Store.SameData.refl]
    | cons r rows =>
      have howner : wp (servers R) fails 4 (addFileOwner user md5 filename now r.count) s
          (Honest s (s.OwnerAdded (newUserFile user md5 now filename))) ↔
            fails 4 ∨ (fails 5 = false ∧ fails 6 = false ∧ fails 7 = false) :=
        honest_addFileOwner hi (ownerAdded_iff hi)
      by_cases h3 : fails 3 = true
      · simp [h0, h2, h3, Stmt.exec, hi, wp_issue_bind, processResultOne, howner]
      · cases hu : s.userFilesNamed user md5 filename with
        | nil => simp [h0, h2, h3, Stmt.exec, hi, hu, wp_issue_bind, howner]
        | cons file files =>
          simp [h2, h3, Stmt.exec, hi, hu, wp_issue_bind, gotoEnd, wp_exit, Store.SameData.refl]

/-- Positions of `store_fileinfo_to_mysql`: 0 connect, 2 the row of the file, 3 the
user's row, 4 and 5 the user's count. -/
def StoreHarmless (fails : ℕ → Bool) : Prop :=
  fails 0 ∨ fails 2 ∨ (fails 3 = false ∧ fails 4 = false ∧ fails 5 = false)

theorem storeFileinfo_honest_iff {size : ℤ} {fileid fdfsFileUrl : String} :
    wp (servers R) fails 0 (storeFileinfoToMysql user filename md5 size fileid fdfsFileUrl now) s
        (Honest s (fun t => t = s.addNewFile (newFileInfo filename md5 size fileid fdfsFileUrl)
          (newUserFile user md5 now filename))) ↔
      StoreHarmless fails := by
  have hfirst : ∀ row, ¬ (s.addFileInfo row).SameData s := fun row =>
    not_sameData_of_fileInfo (by simp [Store.addFileInfo])
  have hsecond : ∀ row, ¬ ((s.addFileInfo row).addUserFile
      (newUserFile user md5 now filename)).SameData s := fun row =>
    not_sameData_of_userFileList (addUserFile_ne _)
  have hthird : ∀ row, (s.addFileInfo row).addUserFile (newUserFile user md5 now filename) ≠
      s.addNewFile row (newUserFile user md5 now filename) := fun _ => increaseCount_ne user
  have hall : ∀ row, ((s.addFileInfo row).addUserFile
      (newUserFile user md5 now filename)).increaseCount user =
        s.addNewFile row (newUserFile user md5 now filename) := fun _ => rfl
  unfold StoreHarmless
  rw [storeFileinfoToMysql, wp_connectMysql_bind]
  simp only [wp_mysqlQuery_bind, wp_increaseUserFileCount, Stmt.failed, Stmt.exec, if_true,
    Bool.false_eq_true, if_false, honest_ok, honest_error]
  split_ifs <;> simp_all [Store.SameData.refl]

/-- Positions of `pv_file`: 0 and 1 connect, 3 and 4 the downloads, 5 the question to
redis, 6 the score, 7 the name. A counted download is answered honestly only when
redis does not have the file, since the reply to ZINCRBY is taken for a failure. -/
def PvHarmless (R : RedisServer) (fails : ℕ → Bool) (s : Store) (md5 filename : String) : Prop :=
  fails 0 ∨ fails 1 ∨ fails 3 ∨ s.sharesOf md5 filename = [] ∨ fails 4 ∨
    (fails 5 = false ∧ R.zlexcount s.filePublicZset (md5 ++ filename) = 0 ∧
      (fails 6 → ∃ r rows, s.sharesOf md5 filename = r :: rows ∧
        s.filePublicZset.score (md5 ++ filename) = some (r.pv + 1)) ∧
      (fails 7 → s.fileNameHash.lookup (md5 ++ filename) = some filename))

/-- Every update of `pv_file`: the file is shared and has one more download. -/
def Store.DownloadCounted (R : RedisServer) (s : Store) (md5 filename : String) (t : Store) : Prop :=
  s.sharesOf md5 filename ≠ [] ∧ t = s.pvFile R md5 filename

theorem setSharePv_ne {r : ShareFile} {rows : List ShareFile} {pv : ℤ}
    (hf : s.sharesOf md5 filename = r :: rows) (hpv : pv ≠ r.pv) :
    (s.setSharePv md5 filename pv).shareFileList ≠ s.shareFileList := by
  intro he
  have hrows : (s.setSharePv md5 filename pv).sharesOf md5 filename =
      (s.sharesOf md5 filename).map (fun r => { r with pv := pv }) := by
    simp only [Store.sharesOf, Store.setSharePv]
    rw [filter_updateWhere (by exact fun r h => rfl), updateWhere]
    refine List.map_congr_left (fun r hr => ?_)
    rw [if_pos (List.mem_filter.mp hr).2]
  have hsame : (s.setSharePv md5 filename pv).sharesOf md5 filename = s.sharesOf md5 filename := by
    rw [Store.sharesOf, he]
    rfl
  rw [hsame, hf, List.map_cons, List.cons.injEq] at hrows
  exact hpv (congrArg ShareFile.pv hrows.1).symm

theorem pvFile_honest_iff :
    wp (servers R) fails 0 (pvFile md5 filename) s (Honest s (s.DownloadCounted R md5 filename)) ↔
      PvHarmless R fails s md5 filename := by
  unfold PvHarmless
  rw [pvFile, wp_connectRedis_bind]
  by_cases h0 : fails 0 = true
  · simp [h0, Store.SameData.refl]
  rw [if_neg h0, wp_connectMysql_bind]
  by_cases h1 : fails 1 = true
  · simp [h1, Store.SameData.refl]
  rw [if_neg h1, wp_issue_bind]
  by_cases h3 : fails 3 = true
  · simp [h3, processResultOne, gotoEnd, wp_exit, Store.SameData.refl]
  cases hf : s.sharesOf md5 filename with
  | nil => simp [h3, Stmt.exec, hf, gotoEnd, wp_exit, Store.SameData.refl]
  | cons r rows =>
    by_cases h4 : fails 4 = true
    · simp [h3, h4, Stmt.exec, hf, wp_mysqlQuery_bind, Store.SameData.refl]
    have hset : ¬ (s.setSharePv md5 filename (r.pv + 1)).SameData s :=
      not_sameData_of_shareFileList (setSharePv_ne hf (by omega))
    have hzset : (s.setSharePv md5 filename (r.pv + 1)).filePublicZset = s.filePublicZset := rfl
    by_cases h5 : fails 5 = true
    · simp [h0, h1, h3, h4, h5, Stmt.exec, hf, wp_mysqlQuery_bind, wp_issue_bind, gotoEnd, wp_exit,
        hset]
    rcases hz : R.zlexcount s.filePublicZset (md5 ++ filename) with _ | _ | k
    · have happlied : ∀ t, s.DownloadCounted R md5 filename t ↔
          t = ((s.setSharePv md5 filename (r.pv + 1)).zadd (md5 ++ filename) (r.pv + 1)).hset
            (md5 ++ filename) filename := by
        intro t
        simp [Store.DownloadCounted, Store.pvFile, hf, Store.markRanking, hz, hzset]
      have hhash : (s.setSharePv md5 filename (r.pv + 1)).fileNameHash = s.fileNameHash := rfl
      simp [h0, h1, h3, h4, h5, hz, hf, Stmt.exec, wp_mysqlQuery_bind, wp_issue_bind, wp_setRanking,
        hzset, hhash, happlied, redisWrites_eq_iff]
    · have hincr : ¬ ((s.setSharePv md5 filename (r.pv + 1)).zadd (md5 ++ filename)
          ((s.filePublicZset.score (md5 ++ filename)).getD 0 + 1)).SameData s :=
        not_sameData_of_shareFileList (setSharePv_ne hf (by omega))
      simp [h0, h1, h3, h4, h5, hz, hf, Stmt.exec, wp_mysqlQuery_bind, wp_issue_bind, hzset,
        gotoEnd, wp_exit, hset, hincr]
    · have hne : (k : ℤ) + 1 ≠ 0 := by omega
      have hne' : (k : ℤ) + 1 + 1 ≠ 0 := by omega
      simp [h0, h1, h3, h4, h5, hz, hf, Stmt.exec, wp_mysqlQuery_bind, wp_issue_bind, hzset,
        gotoEnd, wp_exit, hset, hne, hne']

end Handlers

end CServer.CloudDisk
