import CServer.CloudDisk.Service

/-!
# The number of shared files

A shared file has a row in `share_file_list`, the status 1 in its owner's list
and one unit of the counter stored under the reserved name. The handlers change
the three by separate statements with different conditions. The part of the
state concerned is described by `ShareTables`, with one rule for each way a
request changes it; a request that no rule covers breaks the agreement.
-/
namespace CServer.CloudDisk

open Program Rows Runs

/-- A counter, the users' files and the shared files agree, and no file is shared
by two users. -/
structure ShareTables (counter : ℤ) (files : List UserFile) (shares : List ShareFile) : Prop where
  counter_eq : counter = (shares.length : ℤ)
  status_iff : ∀ file ∈ files, file.sharedStatus = 1 ↔ ∃ r ∈ shares, r.key = file.key
  listed : ∀ r ∈ shares, ∃ file ∈ files, file.key = r.key
  file_nodup : (shares.map ShareFile.fileKey).Nodup

namespace ShareTables

variable {counter : ℤ} {files : List UserFile} {shares : List ShareFile}
  {k : String × String × String}

theorem nil : ShareTables 0 [] [] := ⟨rfl, by simp, by simp, by simp⟩

/-- The rows of the list are also distinct with their users. -/
theorem key_nodup (h : ShareTables counter files shares) : (shares.map ShareFile.key).Nodup := by
  have hsnd : (shares.map ShareFile.key).map Prod.snd = shares.map ShareFile.fileKey := by
    rw [List.map_map]
    rfl
  exact List.Nodup.of_map Prod.snd (hsnd ▸ h.file_nodup)

theorem mem_setStatus {status : ℤ} {file : UserFile} :
    file ∈ updateWhere (fun r => decide (r.key = k)) (fun r => { r with sharedStatus := status })
        files ↔
      (∃ r ∈ files, r.key = k ∧ { r with sharedStatus := status } = file) ∨
        (file ∈ files ∧ file.key ≠ k) := by
  simp [mem_updateWhere]

/-- A user's file is put on the list. -/
theorem publish (h : ShareTables counter files shares) (hown : ∃ file ∈ files, file.key = k)
    (hnew : ∀ r ∈ shares, r.fileKey ≠ k.2) {row : ShareFile} (hrow : row.key = k) :
    ShareTables (counter + 1)
      (updateWhere (fun r => decide (r.key = k)) (fun r => { r with sharedStatus := 1 }) files)
      (shares ++ [row]) where
  counter_eq := by
    rw [h.counter_eq, List.length_append, List.length_singleton]
    push_cast
    rfl
  status_iff file hfile := by
    rcases mem_setStatus.mp hfile with ⟨r, hr, hk, rfl⟩ | ⟨hfile, hk⟩
    · have hkey : ({ r with sharedStatus := 1 } : UserFile).key = k := hk
      simp [hkey, hrow]
    · rw [h.status_iff file hfile]
      simp [or_and_right, exists_or, hrow, Ne.symm hk]
  listed r hr := by
    have hkeys : (updateWhere (fun r => decide (r.key = k))
        (fun r : UserFile => { r with sharedStatus := 1 }) files).map UserFile.key =
          files.map UserFile.key :=
      map_updateWhere UserFile.key (by exact fun _ _ => rfl)
    rw [← List.mem_map, hkeys, List.mem_map]
    rcases List.mem_append.mp hr with hr | hr
    · exact h.listed r hr
    · obtain ⟨file, hfile, hk⟩ := hown
      exact ⟨file, hfile, by rw [hk, List.mem_singleton.mp hr, hrow]⟩
  file_nodup := by
    refine nodup_map_append_one h.file_nodup (fun r hr he => hnew r hr ?_)
    rw [he, ← hrow]
    rfl

/-- A row of the list goes, with its unit of the counter. -/
theorem length_deleteRow (h : ShareTables counter files shares) (hshared : ∃ r ∈ shares, r.key = k) :
    counter - 1 = ((deleteWhere (fun r => decide (r.key = k)) shares).length : ℤ) := by
  obtain ⟨r, hr, rfl⟩ := hshared
  have hlen := length_deleteWhere_key ShareFile.key h.key_nodup hr
  rw [h.counter_eq, ← hlen]
  push_cast
  omega

theorem exists_deleteRow {key : String × String × String} :
    (∃ r ∈ deleteWhere (fun r => decide (r.key = k)) shares, r.key = key) ↔
      key ≠ k ∧ ∃ r ∈ shares, r.key = key := by
  constructor
  · rintro ⟨r, hr, rfl⟩
    obtain ⟨hr, hk⟩ := mem_deleteWhere.mp hr
    exact ⟨by simpa using hk, r, hr, rfl⟩
  · rintro ⟨hk, r, hr, rfl⟩
    exact ⟨r, mem_deleteWhere.mpr ⟨hr, by simpa using hk⟩, rfl⟩

/-- A shared file is taken off the list and stays with its user. -/
theorem cancel (h : ShareTables counter files shares) (hshared : ∃ r ∈ shares, r.key = k) :
    ShareTables (counter - 1)
      (updateWhere (fun r => decide (r.key = k)) (fun r => { r with sharedStatus := 0 }) files)
      (deleteWhere (fun r => decide (r.key = k)) shares) where
  counter_eq := h.length_deleteRow hshared
  status_iff file hfile := by
    rw [exists_deleteRow]
    rcases mem_setStatus.mp hfile with ⟨r, hr, hk, rfl⟩ | ⟨hfile, hk⟩
    · have hkey : ({ r with sharedStatus := 0 } : UserFile).key = k := hk
      simp [hkey]
    · rw [h.status_iff file hfile]
      simp [hk]
  listed r hr := by
    obtain ⟨hr, hk⟩ := mem_deleteWhere.mp hr
    obtain ⟨file, hfile, he⟩ := h.listed r hr
    refine ⟨file, mem_setStatus.mpr (.inr ⟨hfile, ?_⟩), he⟩
    rw [he]
    simpa using hk
  file_nodup := nodup_map_deleteWhere h.file_nodup

/-- A shared file is taken off the list and from its user. -/
theorem remove (h : ShareTables counter files shares) (hshared : ∃ r ∈ shares, r.key = k) :
    ShareTables (counter - 1) (deleteWhere (fun r => decide (r.key = k)) files)
      (deleteWhere (fun r => decide (r.key = k)) shares) where
  counter_eq := h.length_deleteRow hshared
  status_iff file hfile := by
    obtain ⟨hfile, hk⟩ := mem_deleteWhere.mp hfile
    have hk' : file.key ≠ k := by simpa using hk
    rw [exists_deleteRow, h.status_iff file hfile]
    simp [hk']
  listed r hr := by
    obtain ⟨hr, hk⟩ := mem_deleteWhere.mp hr
    obtain ⟨file, hfile, he⟩ := h.listed r hr
    exact ⟨file, mem_deleteWhere.mpr ⟨hfile, by rw [he]; exact hk⟩, he⟩
  file_nodup := nodup_map_deleteWhere h.file_nodup

/-- A file that is not shared is taken from its user. -/
theorem dropFile (h : ShareTables counter files shares) (hnot : ∀ r ∈ shares, r.key ≠ k) :
    ShareTables counter (deleteWhere (fun r => decide (r.key = k)) files) shares where
  counter_eq := h.counter_eq
  status_iff file hfile := h.status_iff file (mem_deleteWhere.mp hfile).1
  listed r hr := by
    obtain ⟨file, hfile, he⟩ := h.listed r hr
    refine ⟨file, mem_deleteWhere.mpr ⟨hfile, ?_⟩, he⟩
    rw [he]
    simpa using hnot r hr
  file_nodup := h.file_nodup

/-- A user gets a file that is not shared under the user's name. -/
theorem addFile (h : ShareTables counter files shares) {file : UserFile}
    (hstatus : file.sharedStatus = 0) (hnot : ∀ r ∈ shares, r.key ≠ file.key) :
    ShareTables counter (files ++ [file]) shares where
  counter_eq := h.counter_eq
  status_iff other hother := by
    rcases List.mem_append.mp hother with hother | hother
    · exact h.status_iff other hother
    · rw [List.mem_singleton.mp hother, hstatus]
      simpa using hnot
  listed r hr := by
    obtain ⟨other, hother, he⟩ := h.listed r hr
    exact ⟨other, List.mem_append_left _ hother, he⟩
  file_nodup := h.file_nodup

/-- The status of a file that is not shared is cleared. -/
theorem clearStatus (h : ShareTables counter files shares) (hnot : ∀ r ∈ shares, r.key ≠ k) :
    ShareTables counter
      (updateWhere (fun r => decide (r.key = k)) (fun r => { r with sharedStatus := 0 }) files)
      shares where
  counter_eq := h.counter_eq
  status_iff file hfile := by
    rcases mem_setStatus.mp hfile with ⟨r, hr, hk, rfl⟩ | ⟨hfile, hk⟩
    · have hkey : ({ r with sharedStatus := 0 } : UserFile).key = k := hk
      simpa [hkey] using hnot
    · exact h.status_iff file hfile
  listed r hr := by
    obtain ⟨file, hfile, he⟩ := h.listed r hr
    exact ⟨file, mem_setStatus.mpr (.inr ⟨hfile, by rw [he]; exact hnot r hr⟩), he⟩
  file_nodup := h.file_nodup

/-- New numbers of downloads change neither the rows' keys nor their number. -/
theorem setPv (h : ShareTables counter files shares) (p : ShareFile → Bool) (pv : ℤ) :
    ShareTables counter files (updateWhere p (fun r => { r with pv := pv }) shares) := by
  have hkeys : (updateWhere p (fun r : ShareFile => { r with pv := pv }) shares).map ShareFile.key =
      shares.map ShareFile.key := map_updateWhere ShareFile.key (by exact fun _ _ => rfl)
  have hfiles : (updateWhere p (fun r : ShareFile => { r with pv := pv }) shares).map
      ShareFile.fileKey = shares.map ShareFile.fileKey :=
    map_updateWhere ShareFile.fileKey (by exact fun _ _ => rfl)
  exact {
    counter_eq := by rw [length_updateWhere, h.counter_eq]
    status_iff := fun file hfile => by
      rw [h.status_iff file hfile, ← List.mem_map, ← List.mem_map, hkeys]
    listed := fun r hr => by
      have hmem : r.key ∈ shares.map ShareFile.key := hkeys ▸ List.mem_map_of_mem hr
      obtain ⟨r', hr', he⟩ := List.mem_map.mp hmem
      rw [← he]
      exact h.listed r' hr'
    file_nodup := by
      rw [hfiles]
      exact h.file_nodup }

end ShareTables

/-- The counter of the shared files, absent read as 0, is their number; a user's
file has the status 1 exactly when its row is on the list, where every row is
that of a user's file. -/
structure SharesAgree (s : Store) : Prop where
  counter_eq : s.countOf shareCountKey = (s.shareFileList.length : ℤ)
  status_iff : ∀ file ∈ s.userFileList,
    file.sharedStatus = 1 ↔ ∃ r ∈ s.shareFileList, r.key = file.key
  listed : ∀ r ∈ s.shareFileList, ∃ file ∈ s.userFileList, file.key = r.key

/-- `del_file` of this file changes the share tables as they should be changed:
it is refused, nothing is counted, or the share it removes is the user's own
and the user has a stored count. -/
def DeletionSafe (R : RedisServer) (s : Store) (user md5 filename : String) : Prop :=
  s.shareFlags R user md5 filename = none ∨ shareCountKey ∉ s.userFileCount ∨
    (user ≠ shareCountKey ∧
      ((s.shareFlags R user md5 filename).map Prod.fst = some 1 →
        (∃ r ∈ s.shareFileList, r.key = (user, md5, filename)) ∧ user ∈ s.userFileCount))

/-- A sharing is refused or of a file the user lists; a cancellation and a
deletion are of the user's own share; nobody gets a file under the reserved name;
and no file is uploaded that its user has already shared. -/
def ShareSafe (R : RedisServer) (s : Store) : Request → Prop
  | .upload user filename md5 _ _ _ _ =>
      user ≠ shareCountKey ∧ ∀ r ∈ s.shareFileList, r.key ≠ (user, md5, filename)
  | .dealMd5 user md5 filename _ | .saveFile user md5 filename _ =>
      user ≠ shareCountKey ∨ (∀ r ∈ s.fileInfo, r.md5 ≠ md5) ∨
        ∃ file ∈ s.userFileList, file.key = (user, md5, filename)
  | .delFile user md5 filename => DeletionSafe R s user md5 filename
  | .shareFile user md5 filename _ =>
      R.zlexcount s.filePublicZset (md5 ++ filename) ≠ 0 ∨
        (∃ r ∈ s.shareFileList, r.fileKey = (md5, filename)) ∨
        ∃ file ∈ s.userFileList, file.key = (user, md5, filename)
  | .cancelShareFile user md5 filename =>
      (∃ r ∈ s.shareFileList, r.key = (user, md5, filename)) ∨ shareCountKey ∉ s.userFileCount
  | .pvFile .. | .getRankingFilelist .. | .flushRedis => True

/-- The invariant of the safe requests. -/
def ShareInv (s : Store) : Prop :=
  ShareTables (s.countOf shareCountKey) s.userFileList s.shareFileList

theorem Store.sharesOf_eq_nil (s : Store) {md5 filename : String} :
    s.sharesOf md5 filename = [] ↔ ∀ r ∈ s.shareFileList, r.fileKey ≠ (md5, filename) := by
  simp [Store.sharesOf, ShareFile.ofFile_eq_key, List.filter_eq_nil_iff]

namespace ShareInv

variable {s t : Store} {user md5 filename now : String} {R : RedisServer}

theorem empty : ShareInv Store.empty := .nil

theorem sharesAgree (h : ShareInv s) : SharesAgree s := ⟨h.counter_eq, h.status_iff, h.listed⟩

theorem of_tables {counter : ℤ} {files : List UserFile} {shares : List ShareFile}
    (h : ShareTables counter files shares) (hcounter : t.countOf shareCountKey = counter)
    (hfiles : t.userFileList = files) (hshares : t.shareFileList = shares) : ShareInv t := by
  subst hcounter hfiles hshares
  exact h

/-- Without a counter no file is shared. -/
theorem shares_eq_nil (h : ShareInv s) (hnone : shareCountKey ∉ s.userFileCount) :
    s.shareFileList = [] := by
  have hlen := h.counter_eq
  rw [s.countOf_of_not_mem hnone] at hlen
  exact List.length_eq_zero_iff.mp (by exact_mod_cast hlen.symm)

theorem addNewFile (h : ShareInv s) {row : FileInfo} {file : UserFile}
    (huser : file.user ≠ shareCountKey) (hstatus : file.sharedStatus = 0)
    (hnot : ∀ r ∈ s.shareFileList, r.key ≠ file.key) : ShareInv (s.addNewFile row file) := by
  refine of_tables (h.addFile hstatus hnot) ?_ rfl rfl
  rw [Store.addNewFile, Store.countOf_increaseCount, if_neg huser, add_zero]
  rfl

theorem gainFile (h : ShareInv s) (hsafe : user ≠ shareCountKey ∨ (∀ r ∈ s.fileInfo, r.md5 ≠ md5) ∨
      ∃ file ∈ s.userFileList, file.key = (user, md5, filename)) :
    ShareInv (s.gainFile user md5 now filename) := by
  rcases s.gainFile_cases user md5 now filename with ⟨r, hr, hmd5, hnew, he⟩ | he
  · have huser : user ≠ shareCountKey := by
      rcases hsafe with hsafe | hsafe | ⟨file, hfile, hkey⟩
      · exact hsafe
      · exact absurd hmd5 (hsafe r hr)
      · exact absurd hkey (hnew file hfile)
    have hnot : ∀ row ∈ s.shareFileList, row.key ≠ (newUserFile user md5 now filename).key := by
      intro row hrow hkey
      obtain ⟨file, hfile, hf⟩ := h.listed row hrow
      exact hnew file hfile (hf.trans hkey)
    rw [he]
    refine of_tables (h.addFile rfl hnot) ?_ rfl rfl
    rw [Store.addOwner, Store.countOf_increaseCount, newUserFile, if_neg huser, add_zero]
    rfl
  · rw [he]
    exact h

theorem shareFile (h : ShareInv s)
    (hsafe : R.zlexcount s.filePublicZset (md5 ++ filename) ≠ 0 ∨
      (∃ r ∈ s.shareFileList, r.fileKey = (md5, filename)) ∨
      ∃ file ∈ s.userFileList, file.key = (user, md5, filename)) :
    ShareInv (s.shareFile R user md5 now filename) := by
  unfold Store.shareFile
  by_cases hz : R.zlexcount s.filePublicZset (md5 ++ filename) = 0
  · rw [if_pos hz]
    cases hf : s.sharesOf md5 filename with
    | cons r rows => exact h
    | nil =>
      have hnew := s.sharesOf_eq_nil.mp hf
      have hown : ∃ file ∈ s.userFileList, file.key = (user, md5, filename) := by
        rcases hsafe with hsafe | ⟨r, hr, hk⟩ | hsafe
        · exact absurd hz hsafe
        · exact absurd hk (hnew r hr)
        · exact hsafe
      have hrow : (newShareFile user md5 now filename).key = (user, md5, filename) := rfl
      refine of_tables (h.publish hown hnew hrow) ?_ ?_ rfl
      · exact (s.setSharedStatus user md5 filename 1).countOf_increaseCount shareCountKey _
      · rw [← UserFile.named_eq_key]
        rfl
  · rw [if_neg hz]
    exact h

theorem cancelShareFile (h : ShareInv s)
    (hsafe : (∃ r ∈ s.shareFileList, r.key = (user, md5, filename)) ∨
      shareCountKey ∉ s.userFileCount) :
    ShareInv (s.cancelShareFile user md5 filename) := by
  unfold Store.cancelShareFile
  cases hc : s.userFileCount.lookup shareCountKey with
  | none =>
    have hnil := h.shares_eq_nil (Finmap.lookup_eq_none.mp hc)
    refine of_tables (h.clearStatus (k := (user, md5, filename)) (by simp [hnil])) rfl ?_ rfl
    rw [← UserFile.named_eq_key]
    rfl
  | some count =>
    have hshared := hsafe.resolve_right (not_not.mpr (Finmap.mem_of_lookup_eq_some hc))
    refine of_tables (h.cancel hshared) ?_ ?_ ?_
    · have hcount := s.countOf_decreaseCount hc shareCountKey
      rw [if_pos rfl] at hcount
      have hsame : (s.decreaseCount shareCountKey count).countOf shareCountKey =
          s.countOf shareCountKey - 1 := by omega
      exact hsame
    · rw [← UserFile.named_eq_key]
      rfl
    · rw [← ShareFile.named_eq_key]
      rfl

/-- Deleting an unshared file of a user with an ordinary name. -/
theorem deleteOwn (h : ShareInv s) (huser : user ≠ shareCountKey ∨ user ∉ s.userFileCount)
    (hnot : ∀ r ∈ s.shareFileList, r.key ≠ (user, md5, filename)) :
    ShareInv (s.deleteOwn user md5 filename) := by
  have hcount := s.countOf_deleteOwn user md5 filename shareCountKey
  by_cases hu : user ∈ s.userFileCount
  · have hne := huser.resolve_right (not_not.mpr hu)
    rw [if_neg (fun hc => hne hc.1), add_zero] at hcount
    refine of_tables (h.dropFile hnot) hcount ?_ (s.deleteOwn_shareFileList user md5 filename)
    rw [s.deleteOwn_userFileList, if_pos hu]
  · rw [if_neg (fun hc => hu hc.2), add_zero] at hcount
    refine of_tables h hcount ?_ (s.deleteOwn_shareFileList user md5 filename)
    rw [s.deleteOwn_userFileList, if_neg hu]

theorem pvFile (h : ShareInv s) : ShareInv (s.pvFile R md5 filename) := by
  cases hf : s.sharesOf md5 filename with
  | nil =>
    simp only [Store.pvFile, hf]
    exact h
  | cons r rows =>
    simp only [Store.pvFile, hf]
    obtain ⟨hshares, hfiles, hcounts⟩ :=
      (s.setSharePv md5 filename (r.pv + 1)).markRanking_tables R md5 filename (r.pv + 1)
    refine of_tables (h.setPv (ShareFile.ofFile md5 filename) (r.pv + 1)) ?_ hfiles hshares
    rw [Store.countOf, hcounts]
    rfl

theorem deleteShared (h : ShareInv s) (flag : Bool)
    (hsafe : shareCountKey ∉ s.userFileCount ∨ (user ≠ shareCountKey ∧
      (∃ r ∈ s.shareFileList, r.key = (user, md5, filename)) ∧ user ∈ s.userFileCount)) :
    ShareInv (s.deleteShared user md5 filename flag) := by
  cases hc : s.userFileCount.lookup shareCountKey with
  | none =>
    have hnil := h.shares_eq_nil (Finmap.lookup_eq_none.mp hc)
    have hsame : s.deleteShared user md5 filename flag = s := by
      simp only [Store.deleteShared, hc, Store.dropShareFile]
      rw [deleteWhere_of_none (by simp [hnil])]
    rw [hsame]
    exact h
  | some count =>
    obtain ⟨hne, hshared, hu⟩ := hsafe.resolve_left (not_not.mpr (Finmap.mem_of_lookup_eq_some hc))
    obtain ⟨hfiles, hshares, hcount⟩ := s.deleteShared_tables user md5 filename hc flag
    rw [if_neg hne, add_zero] at hcount
    rw [if_pos (.inr hu)] at hfiles
    exact of_tables (h.remove hshared) hcount hfiles hshares

/-- A flag other than 1 means that the file is not on the list. -/
theorem not_shared_of_flags (h : ShareInv s) {share : ℤ} {flag : Bool}
    (hflags : s.shareFlags R user md5 filename = some (share, flag)) (hshare : share ≠ 1) :
    ∀ r ∈ s.shareFileList, r.key ≠ (user, md5, filename) := by
  intro r hr hk
  obtain ⟨file, hfile, hf⟩ := h.listed r hr
  have hmem : file ∈ s.userFilesNamed user md5 filename := by
    rw [Store.userFilesNamed, UserFile.named_eq_key, List.mem_filter]
    exact ⟨hfile, by simpa using hf.trans hk⟩
  rcases hz : R.zlexcount s.filePublicZset (md5 ++ filename) with _ | _ | n
  · cases hn : s.userFilesNamed user md5 filename with
    | nil => simp [hn] at hmem
    | cons other files =>
      have hother : other ∈ s.userFilesNamed user md5 filename := hn ▸ List.mem_cons_self
      rw [Store.userFilesNamed, UserFile.named_eq_key, List.mem_filter] at hother
      have hstatus := (h.status_iff other hother.1).mpr
        ⟨r, hr, hk.trans (of_decide_eq_true hother.2).symm⟩
      simp only [Store.shareFlags, hz, hn, List.head?_cons, Option.map_some, Option.getD_some,
        Option.some.injEq, Prod.mk.injEq] at hflags
      exact hshare (hflags.1 ▸ hstatus)
  · simp only [Store.shareFlags, hz, Option.some.injEq, Prod.mk.injEq] at hflags
    exact hshare hflags.1.symm
  · simp [Store.shareFlags, hz] at hflags

theorem delFile (h : ShareInv s) (hsafe : DeletionSafe R s user md5 filename) :
    ShareInv (s.delFile R user md5 filename) := by
  unfold Store.delFile
  cases hflags : s.shareFlags R user md5 filename with
  | none => exact h
  | some flags =>
    obtain ⟨share, flag⟩ := flags
    rw [DeletionSafe, hflags] at hsafe
    have hsafe' := hsafe.resolve_left (by simp)
    by_cases hshare : share = 1
    · simp only [hshare, if_true]
      refine h.deleteShared flag (hsafe'.imp_right (fun hs => ⟨hs.1, hs.2 ?_⟩))
      simp [hshare]
    · simp only [hshare, if_false]
      have hnot := h.not_shared_of_flags hflags hshare
      by_cases huser : user = shareCountKey
      · refine h.deleteOwn (.inr ?_) hnot
        rw [huser]
        exact hsafe'.resolve_right (fun hs => hs.1 huser)
      · exact h.deleteOwn (.inl huser) hnot

/-- Each safe request keeps the invariant. -/
theorem step (h : ShareInv s) {req : Request} (hsafe : ShareSafe R s req) :
    ShareInv (step R s req) := by
  cases req with
  | upload user filename md5 size fileid fdfsFileUrl now =>
    rw [step_upload]
    exact addNewFile (s := s.storeObject fileid) h hsafe.1 rfl hsafe.2
  | dealMd5 user md5 filename now =>
    rw [step_dealMd5]
    exact h.gainFile hsafe
  | saveFile user md5 filename now =>
    rw [step_saveFile]
    exact h.gainFile hsafe
  | delFile user md5 filename =>
    rw [step_delFile]
    exact h.delFile hsafe
  | shareFile user md5 filename now =>
    rw [step_shareFile]
    exact h.shareFile hsafe
  | cancelShareFile user md5 filename =>
    rw [step_cancelShareFile]
    exact h.cancelShareFile hsafe
  | pvFile md5 filename =>
    rw [step_pvFile]
    exact h.pvFile
  | getRankingFilelist start count =>
    rw [step_getRankingFilelist]
    obtain ⟨hshares, hfiles, hcounts⟩ := s.refreshRanking_tables
    refine of_tables h ?_ hfiles hshares
    rw [Store.countOf, hcounts]
    rfl
  | flushRedis => exact h

/-- One more under the counter with the list unchanged. -/
theorem counter_breaks (h : ShareInv s) {t : Store} (hshares : t.shareFileList = s.shareFileList)
    (hcounter : t.countOf shareCountKey ≠ s.countOf shareCountKey) : ¬ SharesAgree t := by
  intro hagree
  refine hcounter ?_
  rw [hagree.counter_eq, hshares, ← h.counter_eq]

theorem gainFile_breaks (h : ShareInv s) (hsafe : ¬ (user ≠ shareCountKey ∨
      (∀ r ∈ s.fileInfo, r.md5 ≠ md5) ∨
      ∃ file ∈ s.userFileList, file.key = (user, md5, filename))) :
    ¬ SharesAgree (s.gainFile user md5 now filename) := by
  push Not at hsafe
  obtain ⟨huser, ⟨r, hr, hmd5⟩, hown⟩ := hsafe
  cases hi : s.fileInfoOf md5 with
  | nil => exact absurd hmd5 (s.fileInfoOf_eq_nil.mp hi r hr)
  | cons row rows =>
    have hu := s.userFilesNamed_eq_nil.mpr hown
    have hgain : s.gainFile user md5 now filename =
        s.addOwner (newUserFile user md5 now filename) row.count := by
      simp only [Store.gainFile, hi, hu]
    rw [hgain]
    refine h.counter_breaks rfl ?_
    rw [Store.addOwner, Store.countOf_increaseCount, newUserFile, if_pos huser]
    change s.countOf shareCountKey + 1 ≠ s.countOf shareCountKey
    omega

theorem addNewFile_breaks (h : ShareInv s) {row : FileInfo} {file : UserFile}
    (hstatus : file.sharedStatus = 0)
    (hsafe : file.user = shareCountKey ∨ ∃ r ∈ s.shareFileList, r.key = file.key) :
    ¬ SharesAgree (s.addNewFile row file) := by
  rcases hsafe with huser | ⟨r, hr, hk⟩
  · refine h.counter_breaks rfl ?_
    rw [Store.addNewFile, Store.countOf_increaseCount, if_pos huser]
    change s.countOf shareCountKey + 1 ≠ s.countOf shareCountKey
    omega
  · intro hagree
    have hone := (hagree.status_iff file (by simp)).mpr ⟨r, hr, hk⟩
    omega

theorem shareFile_breaks (hsafe : ¬ (R.zlexcount s.filePublicZset (md5 ++ filename) ≠ 0 ∨
      (∃ r ∈ s.shareFileList, r.fileKey = (md5, filename)) ∨
      ∃ file ∈ s.userFileList, file.key = (user, md5, filename))) :
    ¬ SharesAgree (s.shareFile R user md5 now filename) := by
  push Not at hsafe
  obtain ⟨hz, hnew, hown⟩ := hsafe
  have hpublish : s.shareFile R user md5 now filename = s.publish user md5 now filename := by
    rw [Store.shareFile, if_pos hz, s.sharesOf_eq_nil.mpr hnew]
  rw [hpublish]
  intro hagree
  obtain ⟨file, hfile, hk⟩ := hagree.listed (newShareFile user md5 now filename)
    (List.mem_append_right _ List.mem_cons_self)
  have hkeys : (s.publish user md5 now filename).userFileList.map UserFile.key =
      s.userFileList.map UserFile.key := map_updateWhere UserFile.key (by exact fun _ _ => rfl)
  have hmem : file.key ∈ s.userFileList.map UserFile.key := hkeys ▸ List.mem_map_of_mem hfile
  obtain ⟨other, hother, ho⟩ := List.mem_map.mp hmem
  exact hown other hother (ho.trans hk)

theorem cancelShareFile_breaks (h : ShareInv s)
    (hsafe : ¬ ((∃ r ∈ s.shareFileList, r.key = (user, md5, filename)) ∨
      shareCountKey ∉ s.userFileCount)) :
    ¬ SharesAgree (s.cancelShareFile user md5 filename) := by
  push Not at hsafe
  obtain ⟨hnot, hu⟩ := hsafe
  obtain ⟨count, hc⟩ := Finmap.mem_iff.mp hu
  simp only [Store.cancelShareFile, hc]
  refine h.counter_breaks ?_ ?_
  · exact deleteWhere_of_none (fun r hr => by simpa [ShareFile.named_eq_key] using hnot r hr)
  · have hcount := s.countOf_decreaseCount hc shareCountKey
    rw [if_pos rfl] at hcount
    change (s.decreaseCount shareCountKey count).countOf shareCountKey ≠ s.countOf shareCountKey
    omega

theorem delFile_breaks (h : ShareInv s) (hsafe : ¬ DeletionSafe R s user md5 filename) :
    ¬ SharesAgree (s.delFile R user md5 filename) := by
  simp only [DeletionSafe, not_or, not_not] at hsafe
  obtain ⟨hsome, hu, hsafe⟩ := hsafe
  obtain ⟨count, hc⟩ := Finmap.mem_iff.mp hu
  obtain ⟨⟨share, flag⟩, hflags⟩ := Option.ne_none_iff_exists'.mp hsome
  simp only [Store.delFile, hflags]
  intro hagree
  have hcounter := hagree.counter_eq
  have hstart := h.counter_eq
  by_cases hshare : share = 1
  · rw [if_pos hshare] at hagree hcounter
    obtain ⟨hfiles, hshares, hcount⟩ := s.deleteShared_tables user md5 filename hc flag
    rw [hshares] at hcounter
    by_cases hshared : ∃ r ∈ s.shareFileList, r.key = (user, md5, filename)
    · have hlen := h.length_deleteRow hshared
      by_cases huser : user = shareCountKey
      · rw [if_pos huser] at hcount
        omega
      · -- the share goes and the user's row, without a stored count, stays
        have hcount' : user ∉ s.userFileCount := by
          intro hmem
          exact hsafe ⟨huser, fun _ => ⟨hshared, hmem⟩⟩
        rw [if_neg (by simp [huser, hcount'])] at hfiles
        obtain ⟨r, hr, hk⟩ := hshared
        obtain ⟨file, hfile, hf⟩ := h.listed r hr
        have hone := (h.status_iff file hfile).mpr ⟨r, hr, hf.symm⟩
        have hgone := (hagree.status_iff file (hfiles ▸ hfile)).mp hone
        rw [hshares, ShareTables.exists_deleteRow] at hgone
        exact hgone.1 (hf.trans hk)
    · rw [deleteWhere_of_none (by simpa using hshared)] at hcounter
      split_ifs at hcount <;> omega
  · rw [if_neg hshare] at hagree hcounter
    have huser : user = shareCountKey := by
      by_contra huser
      refine hsafe ⟨huser, fun hone => absurd hone ?_⟩
      simp [hflags, hshare]
    have hcount := s.countOf_deleteOwn user md5 filename shareCountKey
    rw [if_pos ⟨huser, huser ▸ hu⟩] at hcount
    rw [s.deleteOwn_shareFileList] at hcounter
    omega

theorem step_breaks (h : ShareInv s) {req : Request} (hsafe : ¬ ShareSafe R s req) :
    ¬ SharesAgree (CloudDisk.step R s req) := by
  cases req with
  | upload user filename md5 size fileid fdfsFileUrl now =>
    rw [step_upload]
    refine addNewFile_breaks (s := s.storeObject fileid) h rfl ?_
    simp only [ShareSafe, not_and_or, not_not] at hsafe
    push Not at hsafe
    exact hsafe
  | dealMd5 user md5 filename now =>
    rw [step_dealMd5]
    exact h.gainFile_breaks hsafe
  | saveFile user md5 filename now =>
    rw [step_saveFile]
    exact h.gainFile_breaks hsafe
  | delFile user md5 filename =>
    rw [step_delFile]
    exact h.delFile_breaks hsafe
  | shareFile user md5 filename now =>
    rw [step_shareFile]
    exact shareFile_breaks hsafe
  | cancelShareFile user md5 filename =>
    rw [step_cancelShareFile]
    exact h.cancelShareFile_breaks hsafe
  | pvFile md5 filename => exact absurd trivial hsafe
  | getRankingFilelist start count => exact absurd trivial hsafe
  | flushRedis => exact absurd trivial hsafe

end ShareInv

/-- Along any run of requests from empty stores, the counter of the shared files,
their list and the share statuses agree in every state if and only if every
request is safe in the state it finds. -/
theorem shares_agree_iff (R : RedisServer) (requests : List Request) :
    Throughout (step R) SharesAgree Store.empty requests ↔
      Along (step R) (ShareSafe R) Store.empty requests :=
  throughout_iff_along (A := fun _ _ => True) (fun _ h => ShareInv.sharesAgree h)
    (fun _ _ h _ hsafe => ShareInv.step h hsafe)
    (fun _ _ h _ hsafe => ShareInv.step_breaks h hsafe) ShareInv.empty
    (along_of_forall fun _ _ => trivial)

/-- One user shares a file, cancels the share, and cancels it again while
another file is shared. -/
def repeatedCancel : List Request :=
  [.upload "milo" "a.txt" "m1" 5 "id1" "url1" "t1", .upload "milo" "b.txt" "m2" 7 "id2" "url2" "t2",
    .shareFile "milo" "m1" "a.txt" "t3", .shareFile "milo" "m2" "b.txt" "t4",
    .cancelShareFile "milo" "m1" "a.txt", .cancelShareFile "milo" "m1" "a.txt"]

/-- The second cancellation takes the unit of the other shared file. -/
theorem repeatedCancel_breaks :
    (finalState (step .exact) Store.empty repeatedCancel).countOf shareCountKey = 0 ∧
      (finalState (step .exact) Store.empty repeatedCancel).shareFileList.length = 1 ∧
      ¬ Throughout (step .exact) SharesAgree Store.empty repeatedCancel := by
  refine ⟨by decide, by decide, fun h => ?_⟩
  have hlast := (throughout_iff_initial _ _).mp h repeatedCancel [] (List.append_nil _).symm
  exact absurd hlast.counter_eq (by decide)

end CServer.CloudDisk
