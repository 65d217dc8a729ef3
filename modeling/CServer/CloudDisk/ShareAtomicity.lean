import CServer.CloudDisk.Atomicity

/-!
# Failing statements in the handlers of shared files

The conditions under which `cancel_share_file`, `share_file` and `del_file` give
an honest answer, and the one statement that collects every handler.
-/
namespace CServer.CloudDisk

open Program Rows

section Handlers

variable {R : RedisServer} {fails : ℕ → Bool} {n : ℕ} {s : Store}
  {user md5 filename now : String}

/-- Positions of `cancel_share_file`: 0 and 1 connect, 3 the status, 4 and 5 the
counter, 6 the row of the list, 7 the score, 8 the name. A cancellation that stops
before the counter has changed nothing when the status was 0. -/
def CancelHarmless (fails : ℕ → Bool) (s : Store) (user md5 filename : String) : Prop :=
  fails 0 ∨ fails 1 ∨ fails 3 ∨
    ((∀ file ∈ s.userFileList, file.key = (user, md5, filename) → file.sharedStatus = 0) ∧
      (fails 4 ∨ shareCountKey ∉ s.userFileCount ∨ fails 5)) ∨
    (fails 4 = false ∧ shareCountKey ∈ s.userFileCount ∧ fails 5 = false ∧ fails 6 = false ∧
      fails 7 = false ∧ md5 ++ filename ∈ s.filePublicZset ∧
      fails 8 = false ∧ md5 ++ filename ∈ s.fileNameHash)

/-- Every update of `cancel_share_file`. -/
def Store.ShareCancelled (s : Store) (user md5 filename : String) (t : Store) : Prop :=
  ∃ count, s.userFileCount.lookup shareCountKey = some count ∧
    t = ((((s.setSharedStatus user md5 filename 0).decreaseCount shareCountKey count).dropShareFile
      user md5 filename).zrem (md5 ++ filename)).hdel (md5 ++ filename)

theorem cancelShareFile_honest_iff :
    wp (servers R) fails 0 (cancelShareFile user md5 filename) s
        (Honest s (s.ShareCancelled user md5 filename)) ↔
      CancelHarmless fails s user md5 filename := by
  unfold CancelHarmless
  rw [cancelShareFile, wp_connectRedis_bind]
  by_cases h0 : fails 0 = true
  · simp [h0, Store.SameData.refl]
  rw [if_neg h0, wp_connectMysql_bind]
  by_cases h1 : fails 1 = true
  · simp [h1, Store.SameData.refl]
  rw [if_neg h1, wp_mysqlQuery_bind]
  by_cases h3 : fails 3 = true
  · simp [h3, Stmt.failed, Store.SameData.refl]
  rw [if_neg h3, Stmt.exec, if_pos rfl, wp_decreaseUserFileCount_bind]
  have hlookup : (s.setSharedStatus user md5 filename 0).userFileCount.lookup shareCountKey =
      s.userFileCount.lookup shareCountKey := rfl
  cases hc : s.userFileCount.lookup shareCountKey with
  | none =>
    have hu : shareCountKey ∉ s.userFileCount := Finmap.lookup_eq_none.mp hc
    simp [h0, h1, h3, hlookup, hc, hu, setSharedStatus_sameData_iff]
  | some count =>
    have hu : shareCountKey ∈ s.userFileCount := Finmap.mem_of_lookup_eq_some hc
    -- once the counter is down, no failure is honest any more
    have hcounted := not_sameData_of_decreased hc
      (t := (s.setSharedStatus user md5 filename 0).decreaseCount shareCountKey count) rfl
    have hdropped := not_sameData_of_decreased hc
      (t := ((s.setSharedStatus user md5 filename 0).decreaseCount shareCountKey count).dropShareFile
        user md5 filename) rfl
    have hremoved := not_sameData_of_decreased hc
      (t := (((s.setSharedStatus user md5 filename 0).decreaseCount shareCountKey count).dropShareFile
        user md5 filename).zrem (md5 ++ filename)) rfl
    have herased := not_sameData_of_decreased hc
      (t := ((((s.setSharedStatus user md5 filename 0).decreaseCount shareCountKey
        count).dropShareFile user md5 filename).zrem (md5 ++ filename)).hdel (md5 ++ filename)) rfl
    have happlied : ∀ t, s.ShareCancelled user md5 filename t ↔
        t = ((((s.setSharedStatus user md5 filename 0).decreaseCount shareCountKey
          count).dropShareFile user md5 filename).zrem (md5 ++ filename)).hdel (md5 ++ filename) := by
      simp [Store.ShareCancelled, hc]
    rw [hlookup, hc]
    by_cases h4 : fails 4 = true
    · simp [h0, h1, h3, h4, setSharedStatus_sameData_iff]
    by_cases h5 : fails 5 = true
    · simp [h0, h1, h3, h4, h5, setSharedStatus_sameData_iff]
    have hz : (((s.setSharedStatus user md5 filename 0).decreaseCount shareCountKey
        count).dropShareFile user md5 filename).filePublicZset = s.filePublicZset := by
      unfold Store.decreaseCount
      split_ifs <;> rfl
    have hh : ((((s.setSharedStatus user md5 filename 0).decreaseCount shareCountKey
        count).dropShareFile user md5 filename).zrem (md5 ++ filename)).fileNameHash =
          s.fileNameHash := by
      unfold Store.decreaseCount
      split_ifs <;> rfl
    simp only [Bool.not_eq_true] at h4 h5
    by_cases h6 : fails 6 = true
    · simp [h0, h1, h3, h4, h5, h6, wp_mysqlQuery_bind, Stmt.failed, hcounted, hu]
    by_cases h7 : fails 7 = true
    · simp [h0, h1, h3, h4, h5, h6, h7, wp_mysqlQuery_bind, Stmt.failed, Stmt.exec, hdropped, hu]
    by_cases hm : md5 ++ filename ∈ s.filePublicZset
    · by_cases h8 : fails 8 = true
      · simp [h0, h1, h3, h4, h5, h6, h7, h8, wp_mysqlQuery_bind, wp_mysqlQuery, Stmt.failed,
          Stmt.exec, hz, hm, hu, hremoved]
      · by_cases hm' : md5 ++ filename ∈ s.fileNameHash
        · simp [h0, h1, h3, h4, h5, h6, h7, h8, wp_mysqlQuery_bind, wp_mysqlQuery, Stmt.exec, hz, hh,
            hm, hm', hu, happlied]
        · simp [h0, h1, h3, h4, h5, h6, h7, h8, wp_mysqlQuery_bind, wp_mysqlQuery, Stmt.exec, hz, hh,
            hm, hm', hu, herased]
    · simp [h0, h1, h3, h4, h5, h6, h7, wp_mysqlQuery_bind, Stmt.exec, hz, hm, hu, hremoved]

/-- Positions of `share_file`: 0 and 1 connect, 3 the question to redis, 4 the
question to MySQL. A file on the share list already is only marked in redis (5);
otherwise 5 is the status, 6 the row of the list, 7 and 8 the counter, 9 the score
and 10 the name. -/
def ShareHarmless (R : RedisServer) (fails : ℕ → Bool) (s : Store) (user md5 filename : String) :
    Prop :=
  fails 0 ∨ fails 1 ∨ fails 3 ∨ R.zlexcount s.filePublicZset (md5 ++ filename) ≠ 0 ∨
    if fails 4 = false ∧ s.sharesOf md5 filename ≠ [] then
      fails 5 ∨ s.filePublicZset.score (md5 ++ filename) = some 0
    else fails 5 ∨
      (fails 6 ∧
        ∀ file ∈ s.userFileList, file.key = (user, md5, filename) → file.sharedStatus = 1) ∨
      (fails 6 = false ∧ fails 7 = false ∧ fails 8 = false ∧
        (fails 9 → s.filePublicZset.score (md5 ++ filename) = some 0) ∧
        (fails 10 → s.fileNameHash.lookup (md5 ++ filename) = some filename))

/-- The updates of `share_file` for a file that is not on the share list. -/
theorem publish_honest_iff :
    wp (servers R) fails 5 (do
        mysqlQuery (.updateSharedStatus user md5 filename 1)
        mysqlQuery (.insertShareFile (newShareFile user md5 now filename))
        increaseUserFileCount shareCountKey
        setRanking 0 (md5 ++ filename) filename) s
        (Honest s (fun t => t = s.publish user md5 now filename)) ↔
      fails 5 ∨
      (fails 6 ∧
        ∀ file ∈ s.userFileList, file.key = (user, md5, filename) → file.sharedStatus = 1) ∨
      (fails 6 = false ∧ fails 7 = false ∧ fails 8 = false ∧
        (fails 9 → s.filePublicZset.score (md5 ++ filename) = some 0) ∧
        (fails 10 → s.fileNameHash.lookup (md5 ++ filename) = some filename)) := by
  have hlisted : ¬ ((s.setSharedStatus user md5 filename 1).addShareFile
      (newShareFile user md5 now filename)).SameData s :=
    not_sameData_of_shareFileList (by simp [Store.addShareFile, Store.setSharedStatus])
  have huncounted : ∀ lostScore lostName,
      ((s.setSharedStatus user md5 filename 1).addShareFile
        (newShareFile user md5 now filename)).redisWrites lostScore lostName (md5 ++ filename) 0
          filename ≠ s.publish user md5 now filename := by
    intro lostScore lostName he
    have hcount := s.countOf_increaseCount shareCountKey shareCountKey
    have hsame : (s.increaseCount shareCountKey).countOf shareCountKey = s.countOf shareCountKey :=
      (congrArg (fun t => Store.countOf t shareCountKey) he).symm
    rw [hsame, if_pos rfl] at hcount
    omega
  rw [wp_mysqlQuery_bind]
  by_cases h5 : fails 5 = true
  · simp [h5, Stmt.failed, Store.SameData.refl]
  by_cases h6 : fails 6 = true
  · simp [h5, h6, wp_mysqlQuery_bind, Stmt.failed, Stmt.exec, setSharedStatus_sameData_iff]
  simp only [Bool.not_eq_true] at h5 h6
  by_cases h8 : fails 8 = true
  · simp [h5, h6, h8, wp_mysqlQuery_bind, wp_increaseUserFileCount_bind, Stmt.exec, hlisted]
  by_cases h7 : fails 7 = true
  · simp [h5, h6, h7, h8, wp_mysqlQuery_bind, wp_increaseUserFileCount_bind, Stmt.exec,
      wp_setRanking, huncounted]
  · have hpublish : s.publish user md5 now filename =
        ((((s.setSharedStatus user md5 filename 1).addShareFile
          (newShareFile user md5 now filename)).increaseCount shareCountKey).zadd
            (md5 ++ filename) 0).hset (md5 ++ filename) filename := rfl
    have hz : (((s.setSharedStatus user md5 filename 1).addShareFile
        (newShareFile user md5 now filename)).increaseCount shareCountKey).filePublicZset =
          s.filePublicZset := rfl
    have hh : (((s.setSharedStatus user md5 filename 1).addShareFile
        (newShareFile user md5 now filename)).increaseCount shareCountKey).fileNameHash =
          s.fileNameHash := rfl
    simp [h5, h6, h7, h8, wp_mysqlQuery_bind, wp_increaseUserFileCount_bind, Stmt.exec,
      wp_setRanking, hpublish, redisWrites_eq_iff, hz, hh]

theorem shareFile_honest_iff :
    wp (servers R) fails 0 (shareFile user md5 filename now) s
        (Honest s (fun t => t = s.publish user md5 now filename)) ↔
      ShareHarmless R fails s user md5 filename := by
  unfold ShareHarmless
  rw [shareFile, wp_connectRedis_bind]
  by_cases h0 : fails 0 = true
  · simp [h0, Store.SameData.refl]
  rw [if_neg h0, wp_connectMysql_bind]
  by_cases h1 : fails 1 = true
  · simp [h1, Store.SameData.refl]
  rw [if_neg h1, wp_issue_bind]
  by_cases h3 : fails 3 = true
  · simp [h3, Stmt.failed, gotoEnd, wp_exit, Store.SameData.refl]
  rcases hz : R.zlexcount s.filePublicZset (md5 ++ filename) with _ | _ | k
  · have hreply : (Stmt.zsetExit (md5 ++ filename)).exec R s = (0, s) := by
      simp [Stmt.exec, hz]
    have hzadd : (s.zadd (md5 ++ filename) 0).SameData s ↔
        s.filePublicZset.score (md5 ++ filename) = some 0 := by
      refine ⟨fun h => ?_, fun h => ?_⟩
      · have he : s.filePublicZset.add (md5 ++ filename) 0 = s.filePublicZset :=
          congrArg Store.filePublicZset h
        rw [← he, ScoreSet.score_add, if_pos rfl]
      · rw [Store.zadd, ScoreSet.add_of_score _ h]
        exact .refl s
    rw [if_neg h3, hreply, if_neg (Int.zero_ne_one), if_pos rfl, wp_issue_bind]
    by_cases h4 : fails 4 = true
    · simp [h0, h1, h3, h4, Stmt.failed, processResultOne, publish_honest_iff]
    cases hf : s.sharesOf md5 filename with
    | nil => simp [h0, h1, h3, h4, hf, Stmt.exec, publish_honest_iff]
    | cons r rows =>
      by_cases h5 : fails 5 = true
      · simp [h4, h5, hf, Stmt.exec, wp_issue_bind, gotoEnd, wp_exit, Store.SameData.refl]
      · simp [h0, h1, h3, h4, h5, hf, Stmt.exec, wp_issue_bind, gotoEnd, wp_exit, hzadd]
  · simp [h3, hz, Stmt.exec, gotoEnd, wp_exit, Store.SameData.refl]
  · have hne : (k : ℤ) + 1 + 1 ≠ 0 := by omega
    have hne' : (k : ℤ) + 1 ≠ 0 := by omega
    simp [h3, hz, hne, hne', Stmt.exec, gotoEnd, wp_exit, Store.SameData.refl]

/-- The last steps of `del_file` from position `n` on stop before any update: `n` and
`n + 1` are the user's count. -/
def OwnUntouched (fails : ℕ → Bool) (n : ℕ) (s : Store) (user : String) : Prop :=
  user ∉ s.userFileCount ∨ fails n ∨ fails (n + 1)

/-- The last steps of `del_file` are all done: `n + 2` is the user's row, `n + 3` and
`n + 4` the reference count, `n + 5` to `n + 7` the row and the object of a file without
references. -/
def OwnUpdated (fails : ℕ → Bool) (n : ℕ) (s : Store) (user md5 : String) : Prop :=
  user ∈ s.userFileCount ∧ fails n = false ∧ fails (n + 1) = false ∧ fails (n + 2) = false ∧
    fails (n + 3) = false ∧ fails (n + 4) = false ∧
    ∃ r rows, s.fileInfoOf md5 = r :: rows ∧
      (r.count = 1 → fails (n + 5) = false ∧ fails (n + 6) = false ∧ fails (n + 7) = false)

/-- Every update of the last steps of `del_file`. -/
def Store.OwnDeleted (s : Store) (user md5 filename : String) (t : Store) : Prop :=
  ∃ count r rows, s.userFileCount.lookup user = some count ∧ s.fileInfoOf md5 = r :: rows ∧
    t = s.loseFile user md5 filename count

/-- The last steps from a state `t` that the first steps reached from `s`. Once the
user's count is down, only the complete run is honest. -/
theorem deleteOwn_honest_iff {t : Store} {applied : Store → Prop} {complete : Prop}
    (hlost : ∀ count, t.userFileCount.lookup user = some count → ∀ t' : Store,
      t'.userFileCount = (t.decreaseCount user count).userFileCount → ¬ t'.SameData s)
    (happlied : ∀ count r rows, t.userFileCount.lookup user = some count →
      t.fileInfoOf md5 = r :: rows → (applied (t.loseFile user md5 filename count) ↔ complete)) :
    wp (servers R) fails n (do
        decreaseUserFileCount user
        mysqlQuery (.deleteUserFile user md5 filename)
        delFileReference md5) t (Honest s applied) ↔
      (t.SameData s ∧ OwnUntouched fails n t user) ∨ (complete ∧ OwnUpdated fails n t user md5) := by
  unfold OwnUntouched OwnUpdated
  rw [wp_decreaseUserFileCount_bind]
  cases hc : t.userFileCount.lookup user with
  | none =>
    have hu : user ∉ t.userFileCount := Finmap.lookup_eq_none.mp hc
    simp [hu]
  | some count =>
    have hu : user ∈ t.userFileCount := Finmap.mem_of_lookup_eq_some hc
    replace hlost := hlost count hc
    replace happlied := fun r rows => happlied count r rows hc
    simp only
    by_cases h0 : fails n = true
    · simp [h0]
    by_cases h1 : fails (n + 1) = true
    · simp [h0, h1]
    have hcounted := hlost (t.decreaseCount user count) rfl
    have hdropped := hlost ((t.decreaseCount user count).dropUserFile user md5 filename) rfl
    have hset := hlost (((t.decreaseCount user count).dropUserFile user md5
      filename).setFileInfoCount md5 0) rfl
    have hgone := hlost (((t.decreaseCount user count).dropUserFile user md5
      filename).dropFileInfo md5) rfl
    by_cases h2 : fails (n + 2) = true
    · simp [h0, h1, h2, hu, wp_mysqlQuery_bind, Stmt.failed, hcounted]
    have hinfo : ((t.decreaseCount user count).dropUserFile user md5 filename).fileInfoOf md5 =
        t.fileInfoOf md5 := rfl
    have hlose : ((t.decreaseCount user count).dropUserFile user md5 filename).releaseReference md5 =
        t.loseFile user md5 filename count := rfl
    simp only [h0, h1, h2, hu, wp_mysqlQuery_bind, wp_delFileReference, Stmt.exec, if_true, if_false,
      Bool.false_eq_true, hinfo, hlose]
    cases hi : t.fileInfoOf md5 with
    | nil => simp [hdropped]
    | cons r rows =>
      by_cases hr : r.count = 1
      · simp only [honest_ok, honest_error, happlied r rows hi, hdropped, hset, hgone, hr]
        split_ifs <;> simp_all
      · simp only [honest_ok, honest_error, happlied r rows hi, hdropped, hr]
        split_ifs <;> simp_all

/-- The share steps of `del_file` from position `p` on, and the last steps: `p` is the
row of the list, `p + 1` and `p + 2` the counter and, when redis has the file, `p + 3`
the score and `p + 4` the name. A lost ZREM is never made good; a lost HDEL does no
harm when there is no name. -/
def UnshareHarmless (fails : ℕ → Bool) (p : ℕ) (s : Store) (user md5 filename : String)
    (flag : Bool) : Prop :=
  fails p ∨
    ((shareCountKey ∉ s.userFileCount ∨ fails (p + 1) ∨ fails (p + 2)) ∧
      ∀ row ∈ s.shareFileList, row.key ≠ (user, md5, filename)) ∨
    (shareCountKey ∈ s.userFileCount ∧ fails p = false ∧ fails (p + 1) = false ∧
      fails (p + 2) = false ∧
      (flag → fails (p + 3) = false ∧ (fails (p + 4) → md5 ++ filename ∉ s.fileNameHash)) ∧
      OwnUpdated fails (if flag then p + 5 else p + 3) s user md5)

/-- Positions of `del_file`: 0 and 1 connect, 3 the question to redis and 4 the status of
the user's file, which is asked for only when redis does not have the file. -/
def DeleteHarmless (R : RedisServer) (fails : ℕ → Bool) (s : Store) (user md5 filename : String) :
    Prop :=
  fails 0 ∨ fails 1 ∨ fails 3 ∨
    match R.zlexcount s.filePublicZset (md5 ++ filename) with
    | 0 => fails 4 ∨
        if s.shareFlags R user md5 filename = some (1, false) then
          UnshareHarmless fails 5 s user md5 filename false
        else OwnUntouched fails 5 s user ∨ OwnUpdated fails 5 s user md5
    | 1 => UnshareHarmless fails 4 s user md5 filename true
    | _ => True

/-- Every update of `del_file`. -/
def Store.FileDeleted (R : RedisServer) (s : Store) (user md5 filename : String) (t : Store) : Prop :=
  match s.shareFlags R user md5 filename with
  | none => False
  | some (share, flag) =>
    if share = 1 then
      ∃ count, s.userFileCount.lookup shareCountKey = some count ∧
        (s.unshareFile user md5 filename flag count).OwnDeleted user md5 filename t
    else s.OwnDeleted user md5 filename t

theorem dropShareFile_sameData_iff :
    (s.dropShareFile user md5 filename).SameData s ↔
      ∀ row ∈ s.shareFileList, row.key ≠ (user, md5, filename) := by
  have hlist : (s.dropShareFile user md5 filename).SameData s ↔
      (s.dropShareFile user md5 filename).shareFileList = s.shareFileList := by
    refine ⟨fun h => congrArg Store.shareFileList h, fun h => ?_⟩
    unfold Store.SameData
    rw [Store.dropShareFile] at h ⊢
    rw [h]
  rw [hlist, Store.dropShareFile, ShareFile.named_eq_key, deleteWhere, List.filter_eq_self]
  simp

/-- A score and a name erased from redis, each of the two possibly left. -/
def Store.redisErases (s : Store) (lostScore lostName : Bool) (fileid : String) : Store :=
  { s with
    filePublicZset := if lostScore then s.filePublicZset else s.filePublicZset.erase fileid
    fileNameHash := if lostName then s.fileNameHash else s.fileNameHash.erase fileid }

theorem wp_delFileUnshare_bind {flag : Bool} {f : Unit → Program Stmt ℤ Unit}
    {Q : Except ℤ Unit → Store → ℕ → Prop} :
    wp (servers R) fails n (delFileUnshare user md5 filename flag >>= f) s Q ↔
      if fails n then Q (.error (-1)) s (n + 1)
      else match s.userFileCount.lookup shareCountKey with
      | none => Q (.error (-1)) (s.dropShareFile user md5 filename) (n + 2)
      | some count =>
        if fails (n + 1) then Q (.error (-1)) (s.dropShareFile user md5 filename) (n + 2)
        else if fails (n + 2) then Q (.error (-1)) (s.dropShareFile user md5 filename) (n + 3)
        else if flag then
          wp (servers R) fails (n + 5) (f ()) ((s.unshareFile user md5 filename false count).redisErases
            (fails (n + 3)) (fails (n + 4)) (md5 ++ filename)) Q
        else wp (servers R) fails (n + 3) (f ()) (s.unshareFile user md5 filename false count) Q := by
  rw [wp_bind, delFileUnshare, wp_mysqlQuery_bind]
  by_cases hn : fails n = true
  · simp [hn, Stmt.failed]
  rw [if_neg hn, if_neg hn, Stmt.exec, if_pos rfl, wp_issue_bind]
  have hcount : (s.dropShareFile user md5 filename).userFileCount = s.userFileCount := rfl
  by_cases h1 : fails (n + 1) = true
  · cases s.userFileCount.lookup shareCountKey <;>
      simp [h1, Stmt.failed, processResultOne, gotoEnd, wp_exit]
  cases hc : s.userFileCount.lookup shareCountKey with
  | none => simp [h1, Stmt.exec, hcount, hc, gotoEnd, wp_exit]
  | some count =>
    have hu : shareCountKey ∈ s.userFileCount := Finmap.mem_of_lookup_eq_some hc
    by_cases h2 : fails (n + 2) = true
    · simp [h1, h2, Stmt.exec, hcount, hc, wp_mysqlQuery_bind, Stmt.failed]
    · cases flag with
      | false =>
        simp [h1, h2, Stmt.exec, hcount, hc, hu, wp_mysqlQuery_bind, wp_done, Store.unshareFile]
      | true =>
        by_cases h3 : fails (n + 3) = true <;> by_cases h4 : fails (n + 4) = true <;>
          simp [h1, h2, h3, h4, Stmt.exec, hcount, hc, hu, wp_mysqlQuery_bind, wp_issue_bind, wp_done,
            Store.unshareFile, Store.redisErases, Store.zrem, Store.hdel]

/-- What is left in redis matters when it was there. -/
theorem redisErases_eq_iff {lostScore lostName : Bool} {fileid : String} :
    s.redisErases lostScore lostName fileid = s.redisErases false false fileid ↔
      (lostScore → fileid ∉ s.filePublicZset) ∧ (lostName → fileid ∉ s.fileNameHash) := by
  have hscore : s.filePublicZset = s.filePublicZset.erase fileid ↔ fileid ∉ s.filePublicZset := by
    refine ⟨fun he => ?_, fun h => (ScoreSet.erase_of_not_mem _ h).symm⟩
    rw [he]
    simp
  have hname : s.fileNameHash = s.fileNameHash.erase fileid ↔ fileid ∉ s.fileNameHash := by
    refine ⟨fun he => ?_, fun h => Finmap.ext_lookup fun key => ?_⟩
    · rw [he]
      simp
    · by_cases hk : key = fileid
      · rw [hk, Finmap.lookup_erase, Finmap.lookup_eq_none.mpr h]
      · rw [Finmap.lookup_erase_ne hk]
  cases lostScore <;> cases lostName <;> simp [Store.redisErases, hscore, hname]

theorem loseFile_redis (s : Store) (user md5 filename : String) (count : ℤ) :
    (s.loseFile user md5 filename count).filePublicZset = s.filePublicZset ∧
      (s.loseFile user md5 filename count).fileNameHash = s.fileNameHash :=
  Store.releaseReference_redis ((s.decreaseCount user count).dropUserFile user md5 filename) md5

/-- The last steps of `del_file` do not look at redis. -/
theorem loseFile_redisErases {lostScore lostName : Bool} {fileid : String} {count : ℤ} :
    (s.redisErases lostScore lostName fileid).loseFile user md5 filename count =
      (s.loseFile user md5 filename count).redisErases lostScore lostName fileid := by
  unfold Store.loseFile Store.releaseReference
  have hi : (((s.redisErases lostScore lostName fileid).decreaseCount user count).dropUserFile user
      md5 filename).fileInfoOf md5 =
        ((s.decreaseCount user count).dropUserFile user md5 filename).fileInfoOf md5 := rfl
  rw [hi]
  unfold Store.decreaseCount
  split
  · split_ifs <;> rfl
  · split_ifs <;> rfl

/-- The share steps and the last steps together. -/
theorem deleteShared_honest_iff {p : ℕ} {flag : Bool} {applied : Store → Prop}
    (happlied : ∀ t, applied t ↔ ∃ count, s.userFileCount.lookup shareCountKey = some count ∧
        (s.unshareFile user md5 filename flag count).OwnDeleted user md5 filename t)
    (hmember : flag → md5 ++ filename ∈ s.filePublicZset) :
    wp (servers R) fails p (do
        delFileUnshare user md5 filename flag
        decreaseUserFileCount user
        mysqlQuery (.deleteUserFile user md5 filename)
        delFileReference md5) s (Honest s applied) ↔
      UnshareHarmless fails p s user md5 filename flag := by
  unfold UnshareHarmless
  rw [wp_delFileUnshare_bind]
  by_cases hp : fails p = true
  · simp [hp, Store.SameData.refl]
  cases hc : s.userFileCount.lookup shareCountKey with
  | none =>
    have hu : shareCountKey ∉ s.userFileCount := Finmap.lookup_eq_none.mp hc
    simp [hp, hu, dropShareFile_sameData_iff]
  | some count =>
    have hu : shareCountKey ∈ s.userFileCount := Finmap.mem_of_lookup_eq_some hc
    by_cases h1 : fails (p + 1) = true
    · simp [hp, h1, dropShareFile_sameData_iff]
    by_cases h2 : fails (p + 2) = true
    · simp [hp, h1, h2, dropShareFile_sameData_iff]
    -- the counter of the shared files has gone down and never comes up again
    have hless : ∀ t : Store, t.countOf shareCountKey < count → ¬ t.SameData s := by
      intro t ht
      refine not_sameData_of_countOf shareCountKey (ne_of_lt (lt_of_lt_of_eq ht ?_))
      rw [Store.countOf, hc]
      rfl
    have hcounted : (s.unshareFile user md5 filename false count).countOf shareCountKey =
        count - 1 := by
      simp [Store.countOf, Store.unshareFile, Store.setUserFileCount]
    have hlost : ∀ c, (s.unshareFile user md5 filename false count).userFileCount.lookup user =
        some c → ∀ t : Store, t.userFileCount =
          ((s.unshareFile user md5 filename false count).decreaseCount user c).userFileCount →
            ¬ t.SameData s := by
      intro c hlookup t ht
      refine hless t ?_
      have hdown := Store.countOf_decreaseCount _ hlookup shareCountKey
      rw [hcounted] at hdown
      have hsame : t.countOf shareCountKey =
          ((s.unshareFile user md5 filename false count).decreaseCount user c).countOf
            shareCountKey := by
        rw [Store.countOf, ht]
        rfl
      rw [hsame]
      split_ifs at hdown <;> omega
    have howner : user ∈ (s.unshareFile user md5 filename false count).userFileCount ↔
        user ∈ s.userFileCount := by
      simp only [Store.unshareFile, Store.setUserFileCount, Bool.false_eq_true, if_false,
        Finmap.mem_insert]
      exact ⟨fun h => h.elim (fun he => he ▸ hu) id, .inr⟩
    have hinfo : (s.unshareFile user md5 filename false count).fileInfoOf md5 = s.fileInfoOf md5 := rfl
    cases flag with
    | false =>
      have hcomplete : ∀ c r rows,
          (s.unshareFile user md5 filename false count).userFileCount.lookup user = some c →
          (s.unshareFile user md5 filename false count).fileInfoOf md5 = r :: rows →
          (applied ((s.unshareFile user md5 filename false count).loseFile user md5 filename c) ↔
            True) := by
        intro c r rows hlookup hrows
        rw [happlied]
        exact iff_true_intro ⟨count, hc, c, r, rows, hlookup, hrows, rfl⟩
      have hstarted := hless (s.unshareFile user md5 filename false count) (by rw [hcounted]; omega)
      simp [hp, h1, h2, hu, deleteOwn_honest_iff hlost hcomplete, hstarted, OwnUpdated, howner, hinfo]
    | true =>
      have hunshare : s.unshareFile user md5 filename true count =
          (s.unshareFile user md5 filename false count).redisErases false false (md5 ++ filename) :=
        rfl
      have hcomplete : ∀ c r rows,
          ((s.unshareFile user md5 filename false count).redisErases (fails (p + 3)) (fails (p + 4))
            (md5 ++ filename)).userFileCount.lookup user = some c →
          ((s.unshareFile user md5 filename false count).redisErases (fails (p + 3)) (fails (p + 4))
            (md5 ++ filename)).fileInfoOf md5 = r :: rows →
          (applied (((s.unshareFile user md5 filename false count).redisErases (fails (p + 3))
              (fails (p + 4)) (md5 ++ filename)).loseFile user md5 filename c) ↔
            fails (p + 3) = false ∧ (fails (p + 4) → md5 ++ filename ∉ s.fileNameHash)) := by
        intro c r rows hlookup hrows
        have hredis := loseFile_redis (s.unshareFile user md5 filename false count) user md5 filename c
        have hz : ((s.unshareFile user md5 filename false count).loseFile user md5 filename
            c).filePublicZset = s.filePublicZset := hredis.1
        have hh : ((s.unshareFile user md5 filename false count).loseFile user md5 filename
            c).fileNameHash = s.fileNameHash := hredis.2
        have hiff : ((s.unshareFile user md5 filename false count).loseFile user md5 filename
            c).redisErases (fails (p + 3)) (fails (p + 4)) (md5 ++ filename) =
              ((s.unshareFile user md5 filename false count).loseFile user md5 filename
                c).redisErases false false (md5 ++ filename) ↔ _ := redisErases_eq_iff
        rw [hz, hh] at hiff
        have hmem : (fails (p + 3) = true → md5 ++ filename ∉ s.filePublicZset) ↔
            fails (p + 3) = false := by
          simp [hmember rfl]
        rw [happlied, ← hmem, ← hiff, loseFile_redisErases]
        constructor
        · rintro ⟨count', hc', c', r', rows', hlookup', -, he⟩
          have hcount : count' = count := Option.some.inj (hc'.symm.trans hc)
          rw [hcount, hunshare] at hlookup' he
          have hc : c' = c := Option.some.inj (hlookup'.symm.trans hlookup)
          rw [he, hc, loseFile_redisErases]
        · intro he
          refine ⟨count, hc, c, r, rows, hlookup, hrows, ?_⟩
          rw [he, hunshare, loseFile_redisErases]
      have hstarted := hless ((s.unshareFile user md5 filename false count).redisErases
        (fails (p + 3)) (fails (p + 4)) (md5 ++ filename)) (lt_of_eq_of_lt hcounted (by omega))
      have howner' : user ∈ ((s.unshareFile user md5 filename false count).redisErases
          (fails (p + 3)) (fails (p + 4)) (md5 ++ filename)).userFileCount ↔
            user ∈ s.userFileCount := howner
      have hinfo' : ((s.unshareFile user md5 filename false count).redisErases (fails (p + 3))
          (fails (p + 4)) (md5 ++ filename)).fileInfoOf md5 = s.fileInfoOf md5 := rfl
      have htail : wp (servers R) fails (p + 5) _ _ (Honest s applied) ↔ _ :=
        deleteOwn_honest_iff (by exact hlost) hcomplete
      simp [hp, h1, h2, hu, htail, hstarted, OwnUpdated, howner', hinfo', and_assoc]

theorem delFileSteps_honest_iff {p : ℕ} {share : ℤ} {flag : Bool}
    (hflags : s.shareFlags R user md5 filename = some (share, flag))
    (hmember : flag → md5 ++ filename ∈ s.filePublicZset) :
    wp (servers R) fails p (delFileSteps user md5 filename share flag) s
        (Honest s (s.FileDeleted R user md5 filename)) ↔
      if share = 1 then UnshareHarmless fails p s user md5 filename flag
      else OwnUntouched fails p s user ∨ OwnUpdated fails p s user md5 := by
  unfold delFileSteps
  by_cases hshare : share = 1
  · have happlied : ∀ t, s.FileDeleted R user md5 filename t ↔
        ∃ count, s.userFileCount.lookup shareCountKey = some count ∧
          (s.unshareFile user md5 filename flag count).OwnDeleted user md5 filename t := by
      intro t
      simp only [Store.FileDeleted, hflags, if_pos hshare]
    rw [if_pos hshare, if_pos hshare]
    exact deleteShared_honest_iff happlied hmember
  · have hlost : ∀ count, s.userFileCount.lookup user = some count → ∀ t : Store,
        t.userFileCount = (s.decreaseCount user count).userFileCount → ¬ t.SameData s :=
      fun count hc t ht => not_sameData_of_decreased hc ht
    have hcomplete : ∀ count r rows, s.userFileCount.lookup user = some count →
        s.fileInfoOf md5 = r :: rows →
        (s.FileDeleted R user md5 filename (s.loseFile user md5 filename count) ↔ True) := by
      intro count r rows hc hrows
      simp only [Store.FileDeleted, hflags, if_neg hshare]
      exact iff_true_intro ⟨count, r, rows, hc, hrows, rfl⟩
    rw [if_neg hshare, if_neg hshare]
    refine (deleteOwn_honest_iff hlost hcomplete).trans ?_
    simp [Store.SameData.refl]

theorem delFile_honest_iff :
    wp (servers R) fails 0 (delFile user md5 filename) s
        (Honest s (s.FileDeleted R user md5 filename)) ↔
      DeleteHarmless R fails s user md5 filename := by
  unfold DeleteHarmless
  rw [delFile, wp_connectRedis_bind]
  by_cases h0 : fails 0 = true
  · simp [h0, Store.SameData.refl]
  rw [if_neg h0, wp_connectMysql_bind]
  by_cases h1 : fails 1 = true
  · simp [h1, Store.SameData.refl]
  rw [if_neg h1, wp_bind, delFileShareFlags, wp_issue_bind]
  by_cases h3 : fails 3 = true
  · simp [h3, Stmt.failed, gotoEnd, wp_exit, Store.SameData.refl]
  rw [if_neg h3]
  rcases hz : R.zlexcount s.filePublicZset (md5 ++ filename) with _ | _ | k
  · have hreply : (Stmt.zsetExit (md5 ++ filename)).exec R s = (0, s) := by
      simp [Stmt.exec, hz]
    have hflags : s.shareFlags R user md5 filename =
        some (((s.userFilesNamed user md5 filename).head?.map UserFile.sharedStatus).getD 0,
          false) := by
      simp only [Store.shareFlags, hz]
    have hstatus : wp (servers R) fails 5 _ _ _ ↔ _ := delFileSteps_honest_iff hflags (by simp)
    rw [hreply, if_neg Int.zero_ne_one, if_pos rfl, wp_issue_bind]
    by_cases h4 : fails 4 = true
    · simp [h4, Stmt.failed, processResultOne, gotoEnd, wp_exit, Store.SameData.refl]
    rw [if_neg h4]
    cases hf : s.userFilesNamed user md5 filename with
    | nil =>
      rw [hf] at hflags hstatus
      simpa [h0, h1, h3, h4, Stmt.exec, hf, hflags, wp_done] using hstatus
    | cons file files =>
      rw [hf] at hflags hstatus
      by_cases hshared : file.sharedStatus = 1
      · simpa [h0, h1, h3, h4, Stmt.exec, hf, hflags, wp_done, hshared] using hstatus
      · simpa [h0, h1, h3, h4, Stmt.exec, hf, hflags, wp_done, hshared] using hstatus
  · have hreply : (Stmt.zsetExit (md5 ++ filename)).exec R s = (1, s) := by
      simp [Stmt.exec, hz]
    have hflags : s.shareFlags R user md5 filename = some (1, true) := by
      simp only [Store.shareFlags, hz]
    have hmember : md5 ++ filename ∈ s.filePublicZset := R.mem_of_zlexcount _ _ (by omega)
    have hsteps : wp (servers R) fails 4 _ _ _ ↔ _ :=
      delFileSteps_honest_iff hflags (fun _ => hmember)
    rw [hreply, if_pos rfl]
    simpa [h0, h1, h3, wp_done] using hsteps
  · have hne : (k : ℤ) + 1 + 1 ≠ 0 := by omega
    have hne' : (k : ℤ) + 1 ≠ 0 := by omega
    simp [hz, hne, hne', Stmt.exec, gotoEnd, wp_exit, Store.SameData.refl]

end Handlers

/-- The handlers that change the tables, with their arguments. -/
inductive Operation where
  | shareFile (user md5 filename now : String)
  | delFile (user md5 filename : String)
  | cancelShareFile (user md5 filename : String)
  | saveFile (user md5 filename now : String)
  | dealMd5 (user md5 filename now : String)
  | pvFile (md5 filename : String)
  | storeFileinfoToMysql (user filename md5 : String) (size : ℤ) (fileid fdfsFileUrl now : String)
  deriving DecidableEq, Repr

namespace Operation

def program : Operation → Handler Unit
  | .shareFile user md5 filename now => CloudDisk.shareFile user md5 filename now
  | .delFile user md5 filename => CloudDisk.delFile user md5 filename
  | .cancelShareFile user md5 filename => CloudDisk.cancelShareFile user md5 filename
  | .saveFile user md5 filename now => CloudDisk.saveFile user md5 filename now
  | .dealMd5 user md5 filename now => CloudDisk.dealMd5 user md5 filename now
  | .pvFile md5 filename => CloudDisk.pvFile md5 filename
  | .storeFileinfoToMysql user filename md5 size fileid fdfsFileUrl now =>
      CloudDisk.storeFileinfoToMysql user filename md5 size fileid fdfsFileUrl now

/-- `t` is `s` with every update of the operation. -/
def Applied (R : RedisServer) (s : Store) : Operation → Store → Prop
  | .shareFile user md5 filename now, t => t = s.publish user md5 now filename
  | .delFile user md5 filename, t => s.FileDeleted R user md5 filename t
  | .cancelShareFile user md5 filename, t => s.ShareCancelled user md5 filename t
  | .saveFile user md5 filename now, t => s.OwnerAdded (newUserFile user md5 now filename) t
  | .dealMd5 user md5 filename now, t => s.OwnerAdded (newUserFile user md5 now filename) t
  | .pvFile md5 filename, t => s.DownloadCounted R md5 filename t
  | .storeFileinfoToMysql user filename md5 size fileid fdfsFileUrl now, t =>
      t = s.addNewFile (newFileInfo filename md5 size fileid fdfsFileUrl)
        (newUserFile user md5 now filename)

/-- The failing statements do not make the operation's answer a wrong one. -/
def FaultsHarmless (R : RedisServer) (fails : ℕ → Bool) (s : Store) : Operation → Prop
  | .shareFile user md5 filename _ => ShareHarmless R fails s user md5 filename
  | .delFile user md5 filename => DeleteHarmless R fails s user md5 filename
  | .cancelShareFile user md5 filename => CancelHarmless fails s user md5 filename
  | .saveFile user md5 filename _ => SaveHarmless fails s user md5 filename
  | .dealMd5 user md5 filename _ => DealHarmless fails s user md5 filename
  | .pvFile md5 filename => PvHarmless R fails s md5 filename
  | .storeFileinfoToMysql .. => StoreHarmless fails

/-- The operation run with failing statements answers what it did. -/
def AnswersHonestly (R : RedisServer) (fails : ℕ → Bool) (s : Store) (op : Operation) : Prop :=
  let (r, t, _) := runFaulty (servers R) fails 0 op.program s
  (retOf r = 0 → op.Applied R s t) ∧ (retOf r ≠ 0 → t.SameData s)

end Operation

/-- A shared file that redis has in its ranking. -/
def rankedShare : Store :=
  { Store.empty with
    shareFileList := [newShareFile "milo" "m1" "t" "a.txt"]
    filePublicZset := ScoreSet.empty.add "m1a.txt" 0 }

end CServer.CloudDisk
