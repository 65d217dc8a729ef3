import CServer.CloudDisk.Service
import CServer.Foundation.References

/-!
# The reference count of a stored file

`file_info.count` is the number of users' files that refer to a stored object.
The requests that change it are the upload of a new file, the two ways to get a
file already stored, and deletion. Deletion does not look whether the user has
the file, and an upload does not look whether it is stored; the counts stay
exact along the runs in which the request itself takes care of that, and along
no others.
-/
namespace CServer.CloudDisk

open Rows Runs

/-- The stored rows, their counts and the stored objects agree with the users' lists. -/
structure ReferencesExact (s : Store) : Prop where
  row_iff : ∀ md5, (∃ r ∈ s.fileInfo, r.md5 = md5) ↔ ∃ file ∈ s.userFileList, file.md5 = md5
  count_eq : ∀ r ∈ s.fileInfo,
    r.count = ((s.userFileList.filter (fun file => file.md5 = r.md5)).length : ℤ)
  object_iff : ∀ fileId, fileId ∈ s.objects ↔ ∃ r ∈ s.fileInfo, r.fileId = fileId

/-- The requests about users' own files; FastDFS gives an upload a new file id. -/
def FileRequest (s : Store) : Request → Prop
  | .upload _ _ _ _ fileid _ _ => fileid ∉ s.objects
  | .dealMd5 .. | .saveFile .. | .delFile .. => True
  | _ => False

/-- An upload brings an md5 that is not stored, and a deletion is of a file the
user lists, unless it ends before the reference count. -/
def ReferenceSafe (s : Store) : Request → Prop
  | .upload _ _ md5 _ _ _ _ => ∀ r ∈ s.fileInfo, r.md5 ≠ md5
  | .delFile user md5 filename =>
      (∃ file ∈ s.userFileList, file.key = (user, md5, filename)) ∨
        (∀ r ∈ s.fileInfo, r.md5 ≠ md5) ∨ user ∉ s.userFileCount
  | _ => True

instance (s : Store) : (req : Request) → Decidable (FileRequest s req)
  | .upload _ _ _ _ fileid _ _ => inferInstanceAs (Decidable (fileid ∉ s.objects))
  | .dealMd5 .. | .saveFile .. | .delFile .. => .isTrue trivial
  | .shareFile .. | .cancelShareFile .. | .pvFile .. | .getRankingFilelist .. | .flushRedis =>
      .isFalse id

instance (s : Store) : (req : Request) → Decidable (ReferenceSafe s req)
  | .upload _ _ md5 _ _ _ _ => inferInstanceAs (Decidable (∀ r ∈ s.fileInfo, r.md5 ≠ md5))
  | .delFile user md5 filename =>
      inferInstanceAs (Decidable ((∃ file ∈ s.userFileList, file.key = (user, md5, filename)) ∨
        (∀ r ∈ s.fileInfo, r.md5 ≠ md5) ∨ user ∉ s.userFileCount))
  | .dealMd5 .. | .saveFile .. | .shareFile .. | .cancelShareFile .. | .pvFile ..
  | .getRankingFilelist .. | .flushRedis => .isTrue trivial

/-- What the safe requests keep: exact references, one row for each object and
each user's file, and nothing shared. -/
structure CountInv (s : Store) : Prop where
  refs : References.Exact FileInfo.md5 FileInfo.count UserFile.md5 s.fileInfo s.userFileList
  object_iff : ∀ fileId, fileId ∈ s.objects ↔ fileId ∈ s.fileInfo.map FileInfo.fileId
  fileId_nodup : (s.fileInfo.map FileInfo.fileId).Nodup
  file_nodup : (s.userFileList.map UserFile.key).Nodup
  unshared : ∀ file ∈ s.userFileList, file.sharedStatus = 0
  unranked : s.filePublicZset = .empty

theorem CountInv.empty : CountInv Store.empty where
  refs := .nil
  object_iff := by simp [Store.empty]
  fileId_nodup := by simp [Store.empty]
  file_nodup := by simp [Store.empty]
  unshared := by simp [Store.empty]
  unranked := rfl

theorem CountInv.referencesExact {s : Store} (h : CountInv s) : ReferencesExact s where
  row_iff md5 := by rw [h.refs.stored_iff, References.count_pos]
  count_eq r hr := by
    rw [h.refs.count_eq r hr, References.count, List.countP_eq_length_filter]
  object_iff fileId := by rw [h.object_iff, List.mem_map]

namespace CountInv

variable {s : Store} {user md5 filename now : String}

theorem addNewFile (h : CountInv s) {row : FileInfo} {file : UserFile} {fileid : String}
    (hid : row.fileId = fileid) (hfresh : fileid ∉ s.objects)
    (hnew : ∀ r ∈ s.fileInfo, r.md5 ≠ row.md5) (hmd5 : file.md5 = row.md5) (hcount : row.count = 1)
    (hstatus : file.sharedStatus = 0) :
    CountInv ((s.storeObject fileid).addNewFile row file) where
  refs := h.refs.first hnew hmd5 hcount
  object_iff id := by
    rw [Store.addNewFile_objects, Store.addNewFile_fileInfo]
    simp only [Store.storeObject, Finset.mem_insert, List.map_append, List.map_singleton,
      List.mem_append, List.mem_singleton, h.object_iff id, hid]
    exact or_comm
  fileId_nodup := by
    refine nodup_map_append_one h.fileId_nodup (fun r hr he => hfresh ?_)
    exact (h.object_iff fileid).mpr (List.mem_map.mpr ⟨r, hr, he.trans hid⟩)
  file_nodup := by
    refine nodup_map_append_one h.file_nodup (fun other hother he => ?_)
    have hmd5' : other.md5 = row.md5 := by
      rw [← hmd5]
      exact congrArg (fun k => k.2.1) he
    obtain ⟨r, hr, hr'⟩ := (h.referencesExact.row_iff row.md5).mpr ⟨other, hother, hmd5'⟩
    exact hnew r hr hr'
  unshared other hother := by
    rcases List.mem_append.mp hother with hother | hother
    · exact h.unshared other hother
    · rw [List.mem_singleton.mp hother, hstatus]
  unranked := h.unranked

theorem map_setFileInfoCount (s : Store) (md5 : String) (count : ℤ) :
    (s.setFileInfoCount md5 count).fileInfo.map FileInfo.fileId = s.fileInfo.map FileInfo.fileId :=
  map_updateWhere FileInfo.fileId (by exact fun _ _ => rfl)

theorem addOwner (h : CountInv s) {file : UserFile} {r : FileInfo} (hr : r ∈ s.fileInfo)
    (hmd5 : r.md5 = file.md5) (hnew : ∀ other ∈ s.userFileList, other.key ≠ file.key)
    (hstatus : file.sharedStatus = 0) : CountInv (s.addOwner file r.count) where
  refs := by
    refine h.refs.another (fun _ => rfl) ⟨r, hr, hmd5⟩ (fun r' hr' he => ?_)
    have hsame : r' = r := List.inj_on_of_nodup_map h.refs.key_nodup hr' hr (he.trans hmd5.symm)
    rw [hsame]
  object_iff fileId := (h.object_iff fileId).trans
    (by rw [← map_setFileInfoCount s file.md5 (r.count + 1)]; rfl)
  fileId_nodup := (map_setFileInfoCount s file.md5 (r.count + 1)).symm ▸ h.fileId_nodup
  file_nodup := nodup_map_append_one h.file_nodup hnew
  unshared other hother := by
    rcases List.mem_append.mp hother with hother | hother
    · exact h.unshared other hother
    · rw [List.mem_singleton.mp hother, hstatus]
  unranked := h.unranked

theorem gainFile (h : CountInv s) : CountInv (s.gainFile user md5 now filename) := by
  rcases s.gainFile_cases user md5 now filename with ⟨r, hr, hmd5, hnew, he⟩ | he
  · rw [he]
    exact h.addOwner hr hmd5 hnew rfl
  · rw [he]
    exact h

/-- The rows of the file the user has, and the only one. -/
theorem count_dropUserFile (h : CountInv s) {file : UserFile} (hfile : file ∈ s.userFileList)
    (hkey : file.key = (user, md5, filename)) (md5' : String) :
    References.count UserFile.md5 md5' s.userFileList =
      References.count UserFile.md5 md5' (s.dropUserFile user md5 filename).userFileList +
        if md5 = md5' then 1 else 0 := by
  have hmd5 : file.md5 = md5 := congrArg (fun k => k.2.1) hkey
  rw [References.count_deleteWhere_of_mem UserFile.key h.file_nodup hfile, hmd5, hkey,
    Store.dropUserFile, UserFile.named_eq_key]

theorem loseFile (h : CountInv s) {file : UserFile} (hfile : file ∈ s.userFileList)
    (hkey : file.key = (user, md5, filename)) (count : ℤ) :
    CountInv (s.loseFile user md5 filename count) := by
  have hmd5 : file.md5 = md5 := congrArg (fun k => k.2.1) hkey
  have hrefs := h.count_dropUserFile hfile hkey
  have hfiles : ((s.dropUserFile user md5 filename).userFileList.map UserFile.key).Nodup :=
    nodup_map_deleteWhere h.file_nodup
  have hstatus : ∀ other ∈ (s.dropUserFile user md5 filename).userFileList,
      other.sharedStatus = 0 := fun other hother => h.unshared other (mem_deleteWhere.mp hother).1
  obtain ⟨r, hr, hr'⟩ := (h.referencesExact.row_iff md5).mpr ⟨file, hfile, hmd5⟩
  have hone : s.fileInfoOf md5 = [r] := by
    rw [Store.fileInfoOf, ← hr']
    exact filter_key_of_mem FileInfo.md5 h.refs.key_nodup hr
  have hcount : r.count = References.count UserFile.md5 md5
      (s.dropUserFile user md5 filename).userFileList + 1 := by
    have hself := hrefs md5
    rw [if_pos rfl] at hself
    rw [h.refs.count_eq r hr, hr', hself]
    push_cast
    rfl
  unfold Store.loseFile Store.releaseReference
  have hsame : (((s.decreaseCount user count).dropUserFile user md5 filename).fileInfoOf md5) = [r] :=
    hone
  rw [hsame]
  by_cases hlast : r.count = 1
  · have hzero : References.count UserFile.md5 md5
        (s.dropUserFile user md5 filename).userFileList = 0 := by omega
    have hrow : ∀ r' ∈ s.fileInfo, decide (r'.md5 = md5) = true ↔ r' = r := by
      intro r' hr''
      rw [decide_eq_true_iff]
      refine ⟨fun he => ?_, fun he => he ▸ hr'⟩
      exact List.inj_on_of_nodup_map h.refs.key_nodup hr'' hr (he.trans hr'.symm)
    simp only [if_pos hlast]
    exact {
      refs := h.refs.release_last hrefs hzero
      object_iff := fun fileId =>
        (Finset.mem_erase.trans (and_congr_right fun _ => h.object_iff fileId)).trans
          (mem_map_deleteWhere_one h.fileId_nodup hr hrow fileId).symm
      fileId_nodup := nodup_map_deleteWhere h.fileId_nodup
      file_nodup := hfiles
      unshared := hstatus
      unranked := h.unranked }
  · simp only [if_neg hlast]
    have hmore : 0 < References.count UserFile.md5 md5
        (s.dropUserFile user md5 filename).userFileList := by omega
    exact {
      refs := by
        refine h.refs.release (fun _ => rfl) hrefs hmore (fun r' hr'' he => ?_)
        have hsame : r' = r := List.inj_on_of_nodup_map h.refs.key_nodup hr'' hr (he.trans hr'.symm)
        rw [hsame]
      object_iff := fun fileId => (h.object_iff fileId).trans
        (by rw [← map_setFileInfoCount s md5 (r.count - 1)]; rfl)
      fileId_nodup := (map_setFileInfoCount s md5 (r.count - 1)).symm ▸ h.fileId_nodup
      file_nodup := hfiles
      unshared := hstatus
      unranked := h.unranked }

/-- While nothing is shared, `del_file` has no share steps. -/
theorem delFile_eq (h : CountInv s) (R : RedisServer) :
    s.delFile R user md5 filename = s.deleteOwn user md5 filename := by
  have hz : R.zlexcount s.filePublicZset (md5 ++ filename) = 0 := by
    rw [h.unranked, R.zlexcount_of_equal _ _ (by simp [ScoreSet.empty])]
    simp
  have hflags : s.shareFlags R user md5 filename = some (0, false) := by
    cases hf : s.userFilesNamed user md5 filename with
    | nil => simp [Store.shareFlags, hz, hf]
    | cons file files =>
      have hfile : file ∈ s.userFileList :=
        (List.mem_filter.mp (hf ▸ List.mem_cons_self : file ∈ s.userFilesNamed _ _ _)).1
      simp [Store.shareFlags, hz, hf, h.unshared file hfile]
  rw [Store.delFile, hflags]
  rfl

theorem decreaseCount (h : CountInv s) (count : ℤ) : CountInv (s.decreaseCount user count) :=
  ⟨h.refs, h.object_iff, h.fileId_nodup, h.file_nodup, h.unshared, h.unranked⟩

theorem deleteOwn (h : CountInv s)
    (hsafe : (∃ file ∈ s.userFileList, file.key = (user, md5, filename)) ∨
      (∀ r ∈ s.fileInfo, r.md5 ≠ md5) ∨ user ∉ s.userFileCount) :
    CountInv (s.deleteOwn user md5 filename) := by
  unfold Store.deleteOwn
  cases hu : s.userFileCount.lookup user with
  | none => exact h
  | some count =>
    by_cases hown : ∃ file ∈ s.userFileList, file.key = (user, md5, filename)
    · obtain ⟨file, hfile, hkey⟩ := hown
      exact h.loseFile hfile hkey count
    · rcases hsafe with hsafe | hsafe | hsafe
      · exact absurd hsafe hown
      · push Not at hown
        have hnone : (s.decreaseCount user count).fileInfoOf md5 = [] :=
          (Store.fileInfoOf_eq_nil _).mpr hsafe
        simp only [s.loseFile_of_not_owned hown, Store.releaseReference, hnone]
        exact h.decreaseCount count
      · exact absurd (Finmap.mem_of_lookup_eq_some hu) hsafe

/-- Each safe request keeps the invariant. -/
theorem step (h : CountInv s) (R : RedisServer) {req : Request} (hreq : FileRequest s req)
    (hsafe : ReferenceSafe s req) : CountInv (step R s req) := by
  cases req with
  | upload user filename md5 size fileid fdfsFileUrl now =>
    rw [step_upload]
    exact h.addNewFile rfl hreq hsafe rfl rfl rfl
  | dealMd5 user md5 filename now =>
    rw [step_dealMd5]
    exact h.gainFile
  | saveFile user md5 filename now =>
    rw [step_saveFile]
    exact h.gainFile
  | delFile user md5 filename =>
    rw [step_delFile, h.delFile_eq]
    exact h.deleteOwn hsafe
  | shareFile user md5 filename now => exact hreq.elim
  | cancelShareFile user md5 filename => exact hreq.elim
  | pvFile md5 filename => exact hreq.elim
  | getRankingFilelist start count => exact hreq.elim
  | flushRedis => exact hreq.elim

/-- An upload of a stored md5 makes a second row, whose count 1 is too low. -/
theorem upload_breaks (h : CountInv s) {row r : FileInfo} {file : UserFile} {fileid : String}
    (hr : r ∈ s.fileInfo) (hmd5 : r.md5 = row.md5) (hcount : row.count = 1)
    (hfile : file.md5 = row.md5) :
    ¬ ReferencesExact ((s.storeObject fileid).addNewFile row file) := by
  intro hexact
  obtain ⟨other, hother, ho⟩ := (h.referencesExact.row_iff row.md5).mp ⟨r, hr, hmd5⟩
  have hrow := hexact.count_eq row (by simp)
  have hpos : 0 < (s.userFileList.filter (fun x => x.md5 = row.md5)).length :=
    List.length_pos_of_mem (List.mem_filter.mpr ⟨hother, by simpa using ho⟩)
  have htwo : 1 < ((s.userFileList ++ [file]).filter (fun x => x.md5 = row.md5)).length := by
    rw [List.filter_append, List.length_append, List.filter_cons_of_pos (by simpa using hfile)]
    simp only [List.filter_nil, List.length_singleton]
    omega
  rw [hcount] at hrow
  exact absurd hrow (by exact_mod_cast htwo.ne)

/-- A deletion of a file the user does not list takes away another user's reference. -/
theorem loseFile_breaks (h : CountInv s) {r : FileInfo} (hr : r ∈ s.fileInfo) (hmd5 : r.md5 = md5)
    (hown : ∀ file ∈ s.userFileList, file.key ≠ (user, md5, filename)) (count : ℤ) :
    ¬ ReferencesExact (s.loseFile user md5 filename count) := by
  intro hexact
  rw [s.loseFile_of_not_owned hown] at hexact
  have hone : (s.decreaseCount user count).fileInfoOf md5 = [r] := by
    rw [← hmd5]
    exact filter_key_of_mem FileInfo.md5 h.refs.key_nodup hr
  obtain ⟨file, hfile, hf⟩ := (h.referencesExact.row_iff md5).mp ⟨r, hr, hmd5⟩
  simp only [Store.releaseReference, hone] at hexact
  by_cases hlast : r.count = 1
  · rw [if_pos hlast] at hexact
    obtain ⟨r', hr', he⟩ := (hexact.row_iff md5).mpr ⟨file, hfile, hf⟩
    have hno := (mem_deleteWhere.mp hr').2
    simp [he] at hno
  · rw [if_neg hlast] at hexact
    have hmem : ({ r with count := r.count - 1 } : FileInfo) ∈
        ((s.decreaseCount user count).setFileInfoCount md5 (r.count - 1)).fileInfo :=
      mem_updateWhere.mpr (.inl ⟨r, hr, by simpa using hmd5, rfl⟩)
    have hnew := hexact.count_eq _ hmem
    have hold := h.referencesExact.count_eq r hr
    change r.count - 1 = ((s.userFileList.filter (fun x => x.md5 = r.md5)).length : ℤ) at hnew
    omega

theorem step_breaks (h : CountInv s) (R : RedisServer) {req : Request} (hreq : FileRequest s req)
    (hsafe : ¬ ReferenceSafe s req) : ¬ ReferencesExact (CloudDisk.step R s req) := by
  cases req with
  | upload user filename md5 size fileid fdfsFileUrl now =>
    rw [step_upload]
    simp only [ReferenceSafe] at hsafe
    push Not at hsafe
    obtain ⟨r, hr, hmd5⟩ := hsafe
    exact h.upload_breaks hr hmd5 rfl rfl
  | dealMd5 user md5 filename now => exact absurd trivial hsafe
  | saveFile user md5 filename now => exact absurd trivial hsafe
  | delFile user md5 filename =>
    simp only [ReferenceSafe] at hsafe
    push Not at hsafe
    obtain ⟨hown, ⟨r, hr, hmd5⟩, hu⟩ := hsafe
    obtain ⟨count, hcount⟩ := Finmap.mem_iff.mp hu
    rw [step_delFile, h.delFile_eq, Store.deleteOwn, hcount]
    exact h.loseFile_breaks hr hmd5 hown count
  | shareFile user md5 filename now => exact hreq.elim
  | cancelShareFile user md5 filename => exact hreq.elim
  | pvFile md5 filename => exact hreq.elim
  | getRankingFilelist start count => exact hreq.elim
  | flushRedis => exact hreq.elim

end CountInv

/-- Along a run of uploads, instant uploads, savings and deletions from empty
stores, the references are exact in every state if and only if every request is
safe in the state it finds. -/
theorem references_exact_iff (R : RedisServer) (requests : List Request)
    (hreq : Along (step R) FileRequest Store.empty requests) :
    Throughout (step R) ReferencesExact Store.empty requests ↔
      Along (step R) ReferenceSafe Store.empty requests :=
  throughout_iff_along (fun _ h => CountInv.referencesExact h)
    (fun _ _ h hreq hsafe => CountInv.step h R hreq hsafe)
    (fun _ _ h hreq hsafe => CountInv.step_breaks h R hreq hsafe) CountInv.empty hreq

/-- Two users with a file each, a second owner of the first file, and its deletion by both. -/
def sharedOwnership : List Request :=
  [.upload "milo" "a.txt" "m1" 5 "id1" "url1" "t1", .upload "guest" "b.txt" "m2" 7 "id2" "url2" "t2",
    .saveFile "guest" "m1" "a.txt" "t3", .delFile "milo" "m1" "a.txt", .delFile "guest" "m1" "a.txt"]

theorem references_exact_sharedOwnership :
    Throughout (step .exact) ReferencesExact Store.empty sharedOwnership :=
  (references_exact_iff .exact sharedOwnership (by decide)).mpr (by decide)

/-- Two users upload a file each, and the second one deletes the first one's. -/
def foreignDeletion : List Request :=
  [.upload "milo" "a.txt" "m1" 5 "id1" "url1" "t1", .upload "guest" "b.txt" "m2" 7 "id2" "url2" "t2",
    .delFile "guest" "m1" "a.txt"]

/-- The object is removed while its owner still lists the file. -/
theorem foreignDeletion_breaks :
    Along (step .exact) FileRequest Store.empty foreignDeletion ∧
      newUserFile "milo" "m1" "t1" "a.txt" ∈
        (finalState (step .exact) Store.empty foreignDeletion).userFileList ∧
      "id1" ∉ (finalState (step .exact) Store.empty foreignDeletion).objects ∧
      ¬ Throughout (step .exact) ReferencesExact Store.empty foreignDeletion := by
  have hlisted : newUserFile "milo" "m1" "t1" "a.txt" ∈
      (finalState (step .exact) Store.empty foreignDeletion).userFileList := by decide
  refine ⟨by decide, hlisted, by decide, fun h => ?_⟩
  have hlast := (throughout_iff_initial _ _).mp h foreignDeletion [] (List.append_nil _).symm
  have hrow := (hlast.row_iff "m1").mpr ⟨_, hlisted, rfl⟩
  exact absurd hrow (by decide)

end CServer.CloudDisk
