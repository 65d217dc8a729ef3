import CServer.CloudDisk.ReferenceCount

/-!
# The number of a user's files

`user_file_count` is kept next to `user_file_list` by a read and a write in four
handlers, and the listing joins the list with `file_info`. The three numbers
agree along the runs whose uploads bring new md5s and whose deletions are of
files the user lists, or of users without a stored count.
-/
namespace CServer.CloudDisk

open Program Rows Runs

/-- For every user the stored count is the number of rows and of listed rows. -/
def FileCountsAgree (s : Store) : Prop :=
  ∀ user, user ≠ shareCountKey →
    s.countOf user = ((s.filesOf user).length : ℤ) ∧
      s.countOf user = ((s.joinedFiles user).length : ℤ)

/-- What the front end is given as the number of files. -/
theorem run_getUserFilesCount (R : RedisServer) (s : Store) (user : String) :
    run (servers R) (getUserFilesCount user) s = (.ok (s.countOf user), s) := by
  simp only [getUserFilesCount, run_bind, run_issue, servers_exec, Stmt.exec, if_true]
  cases h : s.userFileCount.lookup user <;> simp [Store.countOf, h]

/-- What it is given as the list: the joined rows, or a failure when there are none. -/
theorem run_getUserFilelist (R : RedisServer) (s : Store) (user : String) (count : ℤ)
    (hcount : ((s.joinedFiles user).length : ℤ) ≤ count) :
    run (servers R) (getUserFilelist "normal" user 0 count) s =
      (if s.joinedFiles user = [] then .error (-1) else .ok (s.joinedFiles user), s) := by
  have hlimit : limit 0 count (s.joinedFiles user) = some (s.joinedFiles user) := by
    rw [limit, if_neg (by omega), Int.toNat_zero, List.drop_zero,
      List.take_of_length_le (by omega)]
  simp only [getUserFilelist, queryUserFilelist, run_bind, run_connectMysql, if_true, run_issue,
    servers_exec, Stmt.exec, ListOrder.sort, pure_eq, run_done, hlimit]
  cases hj : s.joinedFiles user <;> simp [gotoEnd]

/-- An upload brings a new md5; a deletion is of a file the user lists, or the
user has no stored count. -/
def FileCountSafe (s : Store) : Request → Prop
  | .upload _ _ md5 _ _ _ _ => ∀ r ∈ s.fileInfo, r.md5 ≠ md5
  | .delFile user md5 filename =>
      (∃ file ∈ s.userFileList, file.key = (user, md5, filename)) ∨ user ∉ s.userFileCount
  | _ => True

instance (s : Store) : (req : Request) → Decidable (FileCountSafe s req)
  | .upload _ _ md5 _ _ _ _ => inferInstanceAs (Decidable (∀ r ∈ s.fileInfo, r.md5 ≠ md5))
  | .delFile user md5 filename =>
      inferInstanceAs (Decidable ((∃ file ∈ s.userFileList, file.key = (user, md5, filename)) ∨
        user ∉ s.userFileCount))
  | .dealMd5 .. | .saveFile .. | .shareFile .. | .cancelShareFile .. | .pvFile ..
  | .getRankingFilelist .. | .flushRedis => .isTrue trivial

/-- The request is not made under the reserved name of the counter of shared files. -/
def Request.Ordinary : Request → Prop
  | .upload user .. | .dealMd5 user .. | .saveFile user .. | .delFile user .. => user ≠ shareCountKey
  | _ => True

theorem FileCountSafe.referenceSafe {s : Store} {req : Request} (h : FileCountSafe s req) :
    ReferenceSafe s req := by
  cases req with
  | delFile user md5 filename => exact h.imp_right .inr
  | upload => exact h
  | _ => trivial

namespace Store

variable (s : Store)

theorem length_filesOf (user : String) :
    (s.filesOf user).length = References.count UserFile.user user s.userFileList := by
  rw [filesOf, References.count, List.countP_eq_length_filter]

end Store

/-- The invariant: exact references, and exact counts for every name. -/
structure FileCountInv (s : Store) : Prop where
  counted : CountInv s
  count_eq : ∀ user, s.countOf user = (References.count UserFile.user user s.userFileList : ℤ)

theorem FileCountInv.empty : FileCountInv Store.empty := ⟨.empty, fun _ => rfl⟩

namespace FileCountInv

variable {s : Store} {user md5 filename now : String}

theorem fileCountsAgree (h : FileCountInv s) : FileCountsAgree s := by
  intro user _
  have hrows : s.countOf user = ((s.filesOf user).length : ℤ) := by
    rw [h.count_eq, s.length_filesOf]
  have hjoin : (s.joinedFiles user).length = (s.filesOf user).length := by
    refine length_flatMap_of_one (fun file hfile => ?_)
    have hmem : file ∈ s.userFileList := (List.mem_filter.mp hfile).1
    obtain ⟨r, hr, hmd5⟩ := (h.counted.referencesExact.row_iff file.md5).mpr ⟨file, hmem, rfl⟩
    rw [List.length_map, Store.fileInfoOf, ← hmd5,
      filter_key_of_mem FileInfo.md5 h.counted.refs.key_nodup hr, List.length_singleton]
  exact ⟨hrows, by rw [hrows, hjoin]⟩

theorem addRow (h : FileCountInv s) (file : UserFile) :
    ((s.countOf user + if file.user = user then 1 else 0 : ℤ)) =
      (References.count UserFile.user user (s.userFileList ++ [file]) : ℤ) := by
  rw [References.count_append_one, h.count_eq]
  push_cast
  rfl

theorem count_gainFile (h : FileCountInv s) (user' : String) :
    (s.gainFile user md5 now filename).countOf user' =
      (References.count UserFile.user user' (s.gainFile user md5 now filename).userFileList : ℤ) := by
  rcases s.gainFile_cases user md5 now filename with ⟨r, -, -, -, he⟩ | he
  · rw [he, Store.addOwner_userFileList, ← h.addRow, Store.addOwner, Store.countOf_increaseCount]
    rfl
  · rw [he, h.count_eq]

/-- Deleting a listed file takes one from the user's count and one from the rows. -/
theorem count_deleteOwn (h : FileCountInv s)
    (hsafe : (∃ file ∈ s.userFileList, file.key = (user, md5, filename)) ∨
      user ∉ s.userFileCount) (user' : String) :
    (s.deleteOwn user md5 filename).countOf user' =
      (References.count UserFile.user user' (s.deleteOwn user md5 filename).userFileList : ℤ) := by
  cases hu : s.userFileCount.lookup user with
  | none => simp only [Store.deleteOwn, hu, h.count_eq]
  | some count =>
    rcases hsafe with ⟨file, hfile, hkey⟩ | hsafe
    · have hu' : user ∈ s.userFileCount := Finmap.mem_of_lookup_eq_some hu
      have huser : file.user = user := congrArg (fun k => k.1) hkey
      have hrows : References.count UserFile.user user' s.userFileList =
          References.count UserFile.user user' (s.deleteOwn user md5 filename).userFileList +
            if user = user' then 1 else 0 := by
        rw [References.count_deleteWhere_of_mem UserFile.key h.counted.file_nodup hfile, huser,
          hkey, s.deleteOwn_userFileList, if_pos hu']
      have hcount := s.countOf_deleteOwn user md5 filename user'
      have hstart := h.count_eq user'
      simp only [hu', and_true] at hcount
      split_ifs at hcount hrows <;> omega
    · exact absurd (Finmap.mem_of_lookup_eq_some hu) hsafe

theorem step (h : FileCountInv s) (R : RedisServer) {req : Request} (hreq : FileRequest s req)
    (hsafe : FileCountSafe s req) : FileCountInv (step R s req) := by
  refine ⟨h.counted.step R hreq hsafe.referenceSafe, fun user' => ?_⟩
  cases req with
  | upload user filename md5 size fileid fdfsFileUrl now =>
    rw [step_upload, Store.addNewFile_userFileList, Store.addNewFile, Store.countOf_increaseCount]
    exact h.addRow (newUserFile user md5 now filename)
  | dealMd5 user md5 filename now =>
    rw [step_dealMd5]
    exact h.count_gainFile user'
  | saveFile user md5 filename now =>
    rw [step_saveFile]
    exact h.count_gainFile user'
  | delFile user md5 filename =>
    rw [step_delFile, h.counted.delFile_eq]
    exact h.count_deleteOwn hsafe user'
  | shareFile user md5 filename now => exact hreq.elim
  | cancelShareFile user md5 filename => exact hreq.elim
  | pvFile md5 filename => exact hreq.elim
  | getRankingFilelist start count => exact hreq.elim
  | flushRedis => exact hreq.elim

/-- After an upload of a stored md5 its owner's list shows the file twice. -/
theorem upload_breaks (h : FileCountInv s) {row r : FileInfo} {file : UserFile} {fileid : String}
    (hordinary : ∀ other ∈ s.userFileList, other.user ≠ shareCountKey) (hr : r ∈ s.fileInfo)
    (hmd5 : r.md5 = row.md5) (hfile : file.md5 = row.md5) :
    ¬ FileCountsAgree ((s.storeObject fileid).addNewFile row file) := by
  intro hagree
  set t := (s.storeObject fileid).addNewFile row file with ht
  obtain ⟨owner, howner, ho⟩ := (h.counted.referencesExact.row_iff row.md5).mp ⟨r, hr, hmd5⟩
  obtain ⟨hrows, hjoin⟩ := hagree owner.user (hordinary owner howner)
  have hone : ∀ other ∈ t.filesOf owner.user,
      1 ≤ ((t.fileInfoOf other.md5).map (fun r => (other, r))).length := by
    intro other hother
    have hmem : other ∈ s.userFileList ++ [file] := (List.mem_filter.mp hother).1
    rw [List.length_map]
    apply List.length_pos_iff_exists_mem.mpr
    rcases List.mem_append.mp hmem with hmem | hmem
    · obtain ⟨r', hr', he⟩ :=
        (h.counted.referencesExact.row_iff other.md5).mpr ⟨other, hmem, rfl⟩
      exact ⟨r', t.mem_fileInfoOf.mpr ⟨List.mem_append_left _ hr', he⟩⟩
    · refine ⟨row, t.mem_fileInfoOf.mpr ⟨List.mem_append_right _ List.mem_cons_self, ?_⟩⟩
      rw [List.mem_singleton.mp hmem, hfile]
  have htwo : 2 ≤ ((t.fileInfoOf owner.md5).map (fun r => (owner, r))).length := by
    have hsplit : t.fileInfoOf owner.md5 = s.fileInfoOf owner.md5 ++ [row] := by
      rw [Store.fileInfoOf, ht, Store.addNewFile_fileInfo, List.filter_append,
        List.filter_cons_of_pos (by simpa using ho.symm)]
      rfl
    have hpos : 0 < (s.fileInfoOf owner.md5).length :=
      List.length_pos_of_mem (s.mem_fileInfoOf.mpr ⟨hr, hmd5.trans ho.symm⟩)
    rw [List.length_map, hsplit, List.length_append, List.length_singleton]
    omega
  have howner' : owner ∈ t.filesOf owner.user :=
    List.mem_filter.mpr ⟨List.mem_append_left _ howner, by simp⟩
  have hlt : (t.filesOf owner.user).length < (t.joinedFiles owner.user).length :=
    length_lt_flatMap hone howner' htwo
  omega

/-- Deleting a file the user does not list lowers the user's count only. -/
theorem deleteOwn_breaks (h : FileCountInv s) (hordinary : user ≠ shareCountKey)
    (hown : ∀ file ∈ s.userFileList, file.key ≠ (user, md5, filename))
    (hu : user ∈ s.userFileCount) : ¬ FileCountsAgree (s.deleteOwn user md5 filename) := by
  intro hagree
  obtain ⟨count, hcount⟩ := Finmap.mem_iff.mp hu
  simp only [Store.deleteOwn, hcount, s.loseFile_of_not_owned hown] at hagree
  have hrows := (hagree user hordinary).1
  have hstart := h.count_eq user
  have hend := s.countOf_decreaseCount hcount user
  rw [if_pos rfl] at hend
  rw [Store.length_filesOf, Store.releaseReference_userFileList,
    Store.decreaseCount_userFileList, ← hstart, Store.countOf,
    Store.releaseReference_userFileCount] at hrows
  have hsame : (s.decreaseCount user count).countOf user = s.countOf user := hrows
  omega

theorem step_breaks (h : FileCountInv s) (hall : ∀ other ∈ s.userFileList,
      other.user ≠ shareCountKey) (R : RedisServer) {req : Request} (hreq : FileRequest s req)
    (hordinary : req.Ordinary) (hsafe : ¬ FileCountSafe s req) :
    ¬ FileCountsAgree (CloudDisk.step R s req) := by
  cases req with
  | upload user filename md5 size fileid fdfsFileUrl now =>
    simp only [FileCountSafe] at hsafe
    push Not at hsafe
    obtain ⟨r, hr, hmd5⟩ := hsafe
    rw [step_upload]
    exact h.upload_breaks hall hr hmd5 rfl
  | dealMd5 user md5 filename now => exact absurd trivial hsafe
  | saveFile user md5 filename now => exact absurd trivial hsafe
  | delFile user md5 filename =>
    simp only [FileCountSafe] at hsafe
    push Not at hsafe
    rw [step_delFile, h.counted.delFile_eq]
    exact h.deleteOwn_breaks hordinary hsafe.1 hsafe.2
  | shareFile user md5 filename now => exact hreq.elim
  | cancelShareFile user md5 filename => exact hreq.elim
  | pvFile md5 filename => exact hreq.elim
  | getRankingFilelist start count => exact hreq.elim
  | flushRedis => exact hreq.elim

end FileCountInv

/-- Requests under ordinary names leave only rows under ordinary names. -/
theorem ordinary_rows (R : RedisServer) {s : Store} {req : Request}
    (hall : ∀ file ∈ s.userFileList, file.user ≠ shareCountKey) (h : CountInv s)
    (hreq : FileRequest s req) (hordinary : req.Ordinary) :
    ∀ file ∈ (step R s req).userFileList, file.user ≠ shareCountKey := by
  have hgain : ∀ user md5 now filename, user ≠ shareCountKey →
      ∀ file ∈ (s.gainFile user md5 now filename).userFileList, file.user ≠ shareCountKey := by
    intro user md5 now filename huser file hfile
    rcases s.gainFile_cases user md5 now filename with ⟨r, -, -, -, he⟩ | he
    · rw [he, Store.addOwner_userFileList, List.mem_append, List.mem_singleton] at hfile
      rcases hfile with hfile | rfl
      · exact hall file hfile
      · exact huser
    · rw [he] at hfile
      exact hall file hfile
  intro file hfile
  cases req with
  | upload user filename md5 size fileid fdfsFileUrl now =>
    rw [step_upload, Store.addNewFile_userFileList, List.mem_append, List.mem_singleton] at hfile
    rcases hfile with hfile | rfl
    · exact hall file hfile
    · exact hordinary
  | dealMd5 user md5 filename now =>
    rw [step_dealMd5] at hfile
    exact hgain user md5 now filename hordinary file hfile
  | saveFile user md5 filename now =>
    rw [step_saveFile] at hfile
    exact hgain user md5 now filename hordinary file hfile
  | delFile user md5 filename =>
    rw [step_delFile, h.delFile_eq, Store.deleteOwn] at hfile
    cases hu : s.userFileCount.lookup user with
    | none =>
      rw [hu] at hfile
      exact hall file hfile
    | some count =>
      simp only [hu, Store.loseFile, Store.releaseReference_userFileList] at hfile
      exact hall file (mem_deleteWhere.mp hfile).1
  | shareFile user md5 filename now => exact hreq.elim
  | cancelShareFile user md5 filename => exact hreq.elim
  | pvFile md5 filename => exact hreq.elim
  | getRankingFilelist start count => exact hreq.elim
  | flushRedis => exact hreq.elim

/-- Along a run of uploads, instant uploads, savings and deletions from empty
stores, safe requests keep every count equal to the rows and to the listed rows;
and when nobody goes by the name of the counter of shared files, only they do. -/
theorem file_counts_agree_iff (R : RedisServer) (requests : List Request)
    (hreq : Along (step R) FileRequest Store.empty requests) :
    (Along (step R) FileCountSafe Store.empty requests →
        Throughout (step R) FileCountsAgree Store.empty requests) ∧
      ((∀ req ∈ requests, req.Ordinary) →
        Throughout (step R) FileCountsAgree Store.empty requests →
        Along (step R) FileCountSafe Store.empty requests) := by
  constructor
  · intro hsafe
    have hinv := invariant_rule (G := fun s req => FileRequest s req ∧ FileCountSafe s req)
      (fun _ _ h hs => FileCountInv.step h R hs.1 hs.2) FileCountInv.empty
      (along_and.mpr ⟨hreq, hsafe⟩)
    exact hinv.1.mono (fun _ h => h.fileCountsAgree)
  · intro hordinary hagree
    have hkeep : ∀ s req, (FileCountInv s ∧ ∀ file ∈ s.userFileList, file.user ≠ shareCountKey) →
        (FileRequest s req ∧ req.Ordinary) → FileCountSafe s req →
        (FileCountInv (step R s req) ∧
          ∀ file ∈ (step R s req).userFileList, file.user ≠ shareCountKey) :=
      fun s req h hA hs => ⟨h.1.step R hA.1 hs, ordinary_rows R h.2 h.1.counted hA.1 hA.2⟩
    exact guard_rule hkeep (fun s req h hA hs => h.1.step_breaks h.2 R hA.1 hA.2 hs)
      ⟨FileCountInv.empty, by simp [Store.empty]⟩
      (along_and.mpr ⟨hreq, along_of_forall hordinary⟩) hagree

theorem file_counts_agree_sharedOwnership :
    Throughout (step .exact) FileCountsAgree Store.empty sharedOwnership :=
  (file_counts_agree_iff .exact sharedOwnership (by decide)).1 (by decide)

/-- Two users upload the same file: one listing shows it twice for a count of 1. -/
def doubleUpload : List Request :=
  [.upload "milo" "a.txt" "m1" 5 "id1" "url1" "t1", .upload "guest" "a.txt" "m1" 5 "id2" "url2" "t2"]

theorem doubleUpload_breaks :
    Along (step .exact) FileRequest Store.empty doubleUpload ∧
      (finalState (step .exact) Store.empty doubleUpload).countOf "milo" = 1 ∧
      ((finalState (step .exact) Store.empty doubleUpload).joinedFiles "milo").length = 2 ∧
      ¬ Throughout (step .exact) FileCountsAgree Store.empty doubleUpload := by
  refine ⟨by decide, by decide, by decide, fun h => ?_⟩
  have hlast := (throughout_iff_initial _ _).mp h doubleUpload [] (List.append_nil _).symm
  exact absurd (hlast "milo" (by decide)).2 (by decide)

end CServer.CloudDisk
