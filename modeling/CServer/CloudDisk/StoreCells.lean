import CServer.CloudDisk.Handlers
import CServer.Foundation.Cells

/-!
# The cells of the stores

Every statement of the handlers asks for its rows by a key, but for the listings and
for the emptying of a redis key. What is stored under one key is a cell, and
such a statement acts on one cell. Stores with the same cells hold the same rows,
perhaps inserted in another order.
-/
namespace CServer.CloudDisk

open Program Rows

/-- What is asked for at once: the rows of a key, the entry of a key, the sorted set. -/
inductive Cell where
  | fileInfo (md5 : String)
  | userFile (user md5 filename : String)
  | shareFile (md5 filename : String)
  | userFileCount (user : String)
  | filePublicZset
  | fileNameHash (field : String)
  | token (user : String)
  | object (fileId : String)
  deriving DecidableEq

def Cell.Value : Cell → Type
  | .fileInfo _ => List FileInfo
  | .userFile .. => List UserFile
  | .shareFile .. => List ShareFile
  | .userFileCount _ => Option ℤ
  | .filePublicZset => ScoreSet String
  | .fileNameHash _ => Option String
  | .token _ => Option String
  | .object _ => Bool

/-- The stores as a family of cells. -/
def Store.cells (s : Store) : (i : Cell) → i.Value
  | .fileInfo md5 => s.fileInfoOf md5
  | .userFile user md5 filename => s.userFilesNamed user md5 filename
  | .shareFile md5 filename => s.sharesOf md5 filename
  | .userFileCount user => s.userFileCount.lookup user
  | .filePublicZset => s.filePublicZset
  | .fileNameHash field => s.fileNameHash.lookup field
  | .token user => s.tokens.lookup user
  | .object fileId => decide (fileId ∈ s.objects)

/-- The statements that ask by a key. -/
def Stmt.Keyed : (β : Type) → Stmt β → Prop
  | _, .selectUserFilelist .. => False
  | _, .selectShareFilesByPv => False
  | _, .delHash => False
  | _, _ => True

/-- The cell a statement acts on. -/
def Stmt.cell : (β : Type) → Stmt β → Option Cell
  | _, .connectMysql | _, .connectRedis | _, .setNames => none
  | _, .selectFileInfoCount md5 | _, .selectFileInfoId md5 => some (.fileInfo md5)
  | _, .insertFileInfo row => some (.fileInfo row.md5)
  | _, .updateFileInfoCount md5 _ | _, .deleteFileInfo md5 => some (.fileInfo md5)
  | _, .selectUserFile user md5 filename => some (.userFile user md5 filename)
  | _, .selectSharedStatus user md5 filename => some (.userFile user md5 filename)
  | _, .selectUserFilePv user md5 filename => some (.userFile user md5 filename)
  | _, .selectUserFilelist .. => none
  | _, .insertUserFile row => some (.userFile row.user row.md5 row.fileName)
  | _, .updateSharedStatus user md5 filename _ => some (.userFile user md5 filename)
  | _, .updateUserFilePv user md5 filename _ => some (.userFile user md5 filename)
  | _, .deleteUserFile user md5 filename => some (.userFile user md5 filename)
  | _, .selectUserFileCount user | _, .insertUserFileCount user _ => some (.userFileCount user)
  | _, .updateUserFileCount user _ | _, .deleteUserFileCount user => some (.userFileCount user)
  | _, .selectShareFile md5 filename | _, .selectSharePv md5 filename => some (.shareFile md5 filename)
  | _, .selectShareFilesByPv => none
  | _, .insertShareFile row => some (.shareFile row.md5 row.fileName)
  | _, .updateSharePv md5 filename _ => some (.shareFile md5 filename)
  | _, .deleteShareFile _ md5 filename => some (.shareFile md5 filename)
  | _, .zsetExit _ | _, .zsetAdd .. | _, .zsetZrem _ | _, .zsetIncrement _ => some .filePublicZset
  | _, .zsetZcard | _, .zsetZrevrange .. | _, .zsetGetScore _ | _, .delZset => some .filePublicZset
  | _, .hashSet field _ | _, .hashGet field | _, .hashDel field => some (.fileNameHash field)
  | _, .delHash => none
  | _, .getString key => some (.token key)
  | _, .removeFileFromStorage fileId => some (.object fileId)

namespace Store

variable (s : Store)

/-- A store that differs in one cell. -/
theorem cells_eq_update {s t : Store} {i : Cell} {v : i.Value} (hv : t.cells i = v)
    (h : ∀ j, j ≠ i → t.cells j = s.cells j) : t.cells = Function.update s.cells i v := by
  funext j
  by_cases hj : j = i
  · subst hj
    rw [Function.update_self, hv]
  · rw [Function.update_of_ne hj, h j hj]

theorem cells_eq_update_self {s t : Store} (i : Cell) (h : t.cells = s.cells) :
    t.cells = Function.update s.cells i (s.cells i) := by
  rw [Function.update_eq_self, h]

section tables

theorem cells_addFileInfo (row : FileInfo) : (s.addFileInfo row).cells =
    Function.update s.cells (.fileInfo row.md5) (s.fileInfoOf row.md5 ++ [row]) := by
  refine cells_eq_update (filter_append_one_of_pos (by simp)) ?_
  intro j hj
  cases j with
  | fileInfo md5 =>
    have hne : row.md5 ≠ md5 := fun h => hj (by rw [h])
    exact filter_append_one_of_neg (by simpa using hne)
  | _ => rfl

theorem cells_setFileInfoCount (md5 : String) (count : ℤ) : (s.setFileInfoCount md5 count).cells =
    Function.update s.cells (.fileInfo md5) (updateWhere (fun r => r.md5 = md5)
      (fun r => { r with count := count }) (s.fileInfoOf md5)) := by
  refine cells_eq_update (filter_updateWhere (fun _ _ => rfl)) ?_
  intro j hj
  cases j with
  | fileInfo md5' =>
    refine filter_updateWhere_of_disjoint (fun _ _ => rfl) ?_
    intro r hr
    have hmd5 : r.md5 = md5' := by simpa using hr
    have hne : md5' ≠ md5 := fun h => hj (by rw [h])
    simpa [hmd5] using hne
  | _ => rfl

theorem cells_dropFileInfo (md5 : String) : (s.dropFileInfo md5).cells =
    Function.update s.cells (.fileInfo md5)
      (deleteWhere (fun r => r.md5 = md5) (s.fileInfoOf md5)) := by
  refine cells_eq_update filter_deleteWhere ?_
  intro j hj
  cases j with
  | fileInfo md5' =>
    refine filter_deleteWhere_of_disjoint ?_
    intro r _ hr
    have hmd5 : r.md5 = md5' := by simpa using hr
    have hne : md5' ≠ md5 := fun h => hj (by rw [h])
    simpa [hmd5] using hne
  | _ => rfl

/-- A row has one key. -/
theorem named_of_ne {user md5 filename user' md5' filename' : String}
    (hj : Cell.userFile user' md5' filename' ≠ .userFile user md5 filename) (r : UserFile)
    (hr : UserFile.named user' md5' filename' r = true) :
    UserFile.named user md5 filename r = false := by
  rw [UserFile.named_eq_key] at hr ⊢
  have hkey : r.key = (user', md5', filename') := by simpa using hr
  simp only [hkey, decide_eq_false_iff_not, Prod.mk.injEq]
  rintro ⟨rfl, rfl, rfl⟩
  exact hj rfl

theorem cells_addUserFile (row : UserFile) : (s.addUserFile row).cells =
    Function.update s.cells (.userFile row.user row.md5 row.fileName)
      (s.userFilesNamed row.user row.md5 row.fileName ++ [row]) := by
  have hself : UserFile.named row.user row.md5 row.fileName row = true := by simp [UserFile.named]
  refine cells_eq_update (filter_append_one_of_pos hself) ?_
  intro j hj
  cases j with
  | userFile user md5 filename => exact filter_append_one_of_neg (named_of_ne (Ne.symm hj) row hself)
  | _ => rfl

/-- An update of the rows of a key that leaves their keys alone. -/
theorem cells_updateUserFile {user md5 filename : String} {f : UserFile → UserFile}
    (hf : ∀ r, (f r).key = r.key) :
    ({ s with userFileList := updateWhere (UserFile.named user md5 filename) f s.userFileList } :
      Store).cells =
    Function.update s.cells (.userFile user md5 filename)
      (updateWhere (UserFile.named user md5 filename) f (s.userFilesNamed user md5 filename)) := by
  have hnamed : ∀ user' md5' filename' r, UserFile.named user' md5' filename' (f r) =
      UserFile.named user' md5' filename' r := by
    intro user' md5' filename' r
    simp only [UserFile.named_eq_key, hf]
  refine cells_eq_update (filter_updateWhere (fun r _ => hnamed _ _ _ r)) ?_
  intro j hj
  cases j with
  | userFile user' md5' filename' =>
    exact filter_updateWhere_of_disjoint (fun r _ => hnamed _ _ _ r) (named_of_ne hj)
  | _ => rfl

theorem cells_dropUserFile (user md5 filename : String) : (s.dropUserFile user md5 filename).cells =
    Function.update s.cells (.userFile user md5 filename)
      (deleteWhere (UserFile.named user md5 filename) (s.userFilesNamed user md5 filename)) := by
  refine cells_eq_update filter_deleteWhere ?_
  intro j hj
  cases j with
  | userFile user' md5' filename' => exact filter_deleteWhere_of_disjoint (fun r _ => named_of_ne hj r)
  | _ => rfl

/-- A row of `share_file_list` belongs to one file. -/
theorem ofFile_of_ne {md5 filename md5' filename' : String}
    (hj : Cell.shareFile md5' filename' ≠ .shareFile md5 filename) (r : ShareFile)
    (hr : ShareFile.ofFile md5' filename' r = true) : ShareFile.ofFile md5 filename r = false := by
  rw [ShareFile.ofFile_eq_key] at hr ⊢
  have hkey : r.fileKey = (md5', filename') := by simpa using hr
  simp only [hkey, decide_eq_false_iff_not, Prod.mk.injEq]
  rintro ⟨rfl, rfl⟩
  exact hj rfl

theorem cells_addShareFile (row : ShareFile) : (s.addShareFile row).cells =
    Function.update s.cells (.shareFile row.md5 row.fileName)
      (s.sharesOf row.md5 row.fileName ++ [row]) := by
  have hself : ShareFile.ofFile row.md5 row.fileName row = true := by simp [ShareFile.ofFile]
  refine cells_eq_update (filter_append_one_of_pos hself) ?_
  intro j hj
  cases j with
  | shareFile md5 filename => exact filter_append_one_of_neg (ofFile_of_ne (Ne.symm hj) row hself)
  | _ => rfl

theorem cells_setSharePv (md5 filename : String) (pv : ℤ) : (s.setSharePv md5 filename pv).cells =
    Function.update s.cells (.shareFile md5 filename)
      (updateWhere (ShareFile.ofFile md5 filename) (fun r => { r with pv := pv })
        (s.sharesOf md5 filename)) := by
  refine cells_eq_update (filter_updateWhere (fun _ _ => rfl)) ?_
  intro j hj
  cases j with
  | shareFile md5' filename' =>
    exact filter_updateWhere_of_disjoint (fun _ _ => rfl) (ofFile_of_ne hj)
  | _ => rfl

theorem cells_dropShareFile (user md5 filename : String) :
    (s.dropShareFile user md5 filename).cells =
    Function.update s.cells (.shareFile md5 filename)
      (deleteWhere (ShareFile.named user md5 filename) (s.sharesOf md5 filename)) := by
  refine cells_eq_update filter_deleteWhere ?_
  intro j hj
  cases j with
  | shareFile md5' filename' =>
    refine filter_deleteWhere_of_disjoint ?_
    intro r _ hr
    have hno := ofFile_of_ne hj r hr
    simp only [ShareFile.named, ShareFile.ofFile, decide_eq_false_iff_not] at hno ⊢
    exact fun hyes => hno hyes.2
  | _ => rfl

end tables

section entries

theorem cells_setUserFileCount (user : String) (count : ℤ) : (s.setUserFileCount user count).cells =
    Function.update s.cells (.userFileCount user) (some count) := by
  refine cells_eq_update (Finmap.lookup_insert _) ?_
  intro j hj
  cases j with
  | userFileCount user' =>
    have hne : user' ≠ user := fun h => hj (by rw [h])
    exact Finmap.lookup_insert_of_ne _ hne
  | _ => rfl

theorem cells_dropUserFileCount (user : String) : (s.dropUserFileCount user).cells =
    Function.update s.cells (.userFileCount user) none := by
  refine cells_eq_update (Finmap.lookup_erase _ _) ?_
  intro j hj
  cases j with
  | userFileCount user' =>
    have hne : user' ≠ user := fun h => hj (by rw [h])
    exact Finmap.lookup_erase_ne hne
  | _ => rfl

theorem cells_setZset (z : ScoreSet String) : ({ s with filePublicZset := z } : Store).cells =
    Function.update s.cells .filePublicZset z := by
  refine cells_eq_update rfl ?_
  intro j hj
  cases j with
  | filePublicZset => exact absurd rfl hj
  | _ => rfl

theorem cells_hset (field value : String) : (s.hset field value).cells =
    Function.update s.cells (.fileNameHash field) (some value) := by
  refine cells_eq_update (Finmap.lookup_insert _) ?_
  intro j hj
  cases j with
  | fileNameHash field' =>
    have hne : field' ≠ field := fun h => hj (by rw [h])
    exact Finmap.lookup_insert_of_ne _ hne
  | _ => rfl

theorem cells_hdel (field : String) : (s.hdel field).cells =
    Function.update s.cells (.fileNameHash field) none := by
  refine cells_eq_update (Finmap.lookup_erase _ _) ?_
  intro j hj
  cases j with
  | fileNameHash field' =>
    have hne : field' ≠ field := fun h => hj (by rw [h])
    exact Finmap.lookup_erase_ne hne
  | _ => rfl

theorem cells_dropObject (fileId : String) : (s.dropObject fileId).cells =
    Function.update s.cells (.object fileId) false := by
  have hself : decide (fileId ∈ s.objects.erase fileId) = false := by simp
  refine cells_eq_update hself ?_
  intro j hj
  cases j with
  | object fileId' =>
    have hne : fileId' ≠ fileId := fun h => hj (by rw [h])
    show decide (fileId' ∈ s.objects.erase fileId) = decide (fileId' ∈ s.objects)
    rw [decide_eq_decide, Finset.mem_erase]
    exact and_iff_right hne
  | _ => rfl

end entries

end Store

section onCell

variable (R : RedisServer) {β : Type} {c : Stmt β} {i : Cell}

/-- A statement that changes nothing and replies from a cell. -/
theorem onCell_query (reply : i.Value → β)
    (h : ∀ s, (servers R).exec c s = (reply (s.cells i), s)) :
    OnCell (servers R) Store.cells c (some i) := by
  refine ⟨fun v => (reply v, v), ?_⟩
  intro s
  rw [h s]
  exact ⟨rfl, (Function.update_eq_self _ _).symm⟩

/-- A statement that changes a cell and replies from what it was. -/
theorem onCell_update (reply : i.Value → β) (value : i.Value → i.Value) (next : Store → Store)
    (hnext : ∀ s, (next s).cells = Function.update s.cells i (value (s.cells i)))
    (h : ∀ s, (servers R).exec c s = (reply (s.cells i), next s)) :
    OnCell (servers R) Store.cells c (some i) := by
  refine ⟨fun v => (reply v, value v), ?_⟩
  intro s
  rw [h s]
  exact ⟨rfl, hnext s⟩

end onCell

/-- An insert meets the unique key of the user. -/
theorem onCell_insertUserFileCount (R : RedisServer) (user : String) (count : ℤ) :
    OnCell (servers R) Store.cells (Stmt.insertUserFileCount user count)
      (some (.userFileCount user)) := by
  refine ⟨fun v : Option ℤ => if v.isSome then (false, v) else (true, some count), ?_⟩
  intro s
  by_cases hu : user ∈ s.userFileCount
  · have hsome : (s.userFileCount.lookup user).isSome = true := Finmap.lookup_isSome.mpr hu
    have hexec : (servers R).exec (Stmt.insertUserFileCount user count) s = (false, s) :=
      if_pos hu
    rw [hexec]
    simp only [Store.cells, hsome, if_true]
    exact ⟨trivial, Store.cells_eq_update_self (.userFileCount user) rfl⟩
  · have hnone : (s.userFileCount.lookup user).isSome = false := by
      rw [Finmap.lookup_eq_none.mpr hu]
      rfl
    have hexec : (servers R).exec (Stmt.insertUserFileCount user count) s =
        (true, s.setUserFileCount user count) := if_neg hu
    rw [hexec]
    simp only [Store.cells, hnone, Bool.false_eq_true, if_false]
    exact ⟨trivial, s.cells_setUserFileCount user count⟩

theorem cells_updateUserFileCount (s : Store) (user : String) (count : ℤ) :
    (if user ∈ s.userFileCount then s.setUserFileCount user count else s).cells =
      Function.update s.cells (.userFileCount user)
        ((s.userFileCount.lookup user).map (fun _ => count)) := by
  by_cases hu : user ∈ s.userFileCount
  · obtain ⟨n, hn⟩ := Finmap.mem_iff.mp hu
    rw [if_pos hu, hn]
    exact s.cells_setUserFileCount user count
  · rw [if_neg hu, Finmap.lookup_eq_none.mpr hu]
    have hself : s.cells (.userFileCount user) = none := Finmap.lookup_eq_none.mpr hu
    have hsame := Store.cells_eq_update_self (s := s) (t := s) (.userFileCount user) rfl
    rw [hself] at hsame
    exact hsame

theorem exec_hashDel (R : RedisServer) (field : String) (s : Store) :
    (servers R).exec (Stmt.hashDel field) s =
      ((s.fileNameHash.lookup field).isSome, s.hdel field) := by
  have hmem : decide (field ∈ s.fileNameHash) = (s.fileNameHash.lookup field).isSome := by
    rw [Bool.eq_iff_iff, decide_eq_true_eq]
    exact Finmap.lookup_isSome.symm
  show (decide (field ∈ s.fileNameHash), s.hdel field) = _
  rw [hmem]

/-- Each statement that asks by a key acts on its cell. -/
theorem Stmt.onCell (R : RedisServer) : ∀ (β : Type) (c : Stmt β), Stmt.Keyed β c →
    OnCell (servers R) Store.cells c (Stmt.cell β c) := by
  intro β c hc
  cases c with
  | connectMysql => exact ⟨true, fun _ => ⟨rfl, rfl⟩⟩
  | connectRedis => exact ⟨true, fun _ => ⟨rfl, rfl⟩⟩
  | setNames => exact ⟨true, fun _ => ⟨rfl, rfl⟩⟩
  | selectFileInfoCount md5 =>
    exact onCell_query R (fun v : List FileInfo =>
      processResultOne (some (v.map FileInfo.count)) true) (fun _ => rfl)
  | selectFileInfoId md5 =>
    exact onCell_query R (fun v : List FileInfo =>
      processResultOne (some (v.map FileInfo.fileId)) true) (fun _ => rfl)
  | insertFileInfo row =>
    exact onCell_update R (fun _ => true) (fun v : List FileInfo => v ++ [row]) _
      (fun s => s.cells_addFileInfo row) (fun _ => rfl)
  | updateFileInfoCount md5 count =>
    exact onCell_update R (fun _ => true) (fun v : List FileInfo =>
        updateWhere (fun r => r.md5 = md5) (fun r => { r with count := count }) v) _
      (fun s => s.cells_setFileInfoCount md5 count) (fun _ => rfl)
  | deleteFileInfo md5 =>
    exact onCell_update R (fun _ => true) (fun v : List FileInfo =>
        deleteWhere (fun r => r.md5 = md5) v) _
      (fun s => s.cells_dropFileInfo md5) (fun _ => rfl)
  | selectUserFile user md5 filename =>
    exact onCell_query R (fun v : List UserFile =>
      processResultOne (some (v.map (fun _ => ()))) false) (fun _ => rfl)
  | selectSharedStatus user md5 filename =>
    exact onCell_query R (fun v : List UserFile =>
      processResultOne (some (v.map UserFile.sharedStatus)) true) (fun _ => rfl)
  | selectUserFilePv user md5 filename =>
    exact onCell_query R (fun v : List UserFile =>
      processResultOne (some (v.map UserFile.pv)) true) (fun _ => rfl)
  | selectUserFilelist order user start count => exact absurd hc id
  | insertUserFile row =>
    exact onCell_update R (fun _ => true) (fun v : List UserFile => v ++ [row]) _
      (fun s => s.cells_addUserFile row) (fun _ => rfl)
  | updateSharedStatus user md5 filename status =>
    exact onCell_update R (fun _ => true) (fun v : List UserFile =>
        updateWhere (UserFile.named user md5 filename) (fun r => { r with sharedStatus := status }) v) _
      (fun s => s.cells_updateUserFile (fun _ => rfl)) (fun _ => rfl)
  | updateUserFilePv user md5 filename pv =>
    exact onCell_update R (fun _ => true) (fun v : List UserFile =>
        updateWhere (UserFile.named user md5 filename) (fun r => { r with pv := pv }) v) _
      (fun s => s.cells_updateUserFile (fun _ => rfl)) (fun _ => rfl)
  | deleteUserFile user md5 filename =>
    exact onCell_update R (fun _ => true) (fun v : List UserFile =>
        deleteWhere (UserFile.named user md5 filename) v) _
      (fun s => s.cells_dropUserFile user md5 filename) (fun _ => rfl)
  | selectUserFileCount user =>
    exact onCell_query R (fun v : Option ℤ => processResultOne (some v.toList) true) (fun _ => rfl)
  | insertUserFileCount user count => exact onCell_insertUserFileCount R user count
  | updateUserFileCount user count =>
    exact onCell_update R (fun _ => true) (fun v : Option ℤ => v.map (fun _ => count)) _
      (fun s => cells_updateUserFileCount s user count) (fun _ => rfl)
  | deleteUserFileCount user =>
    exact onCell_update R (fun _ => true) (fun _ : Option ℤ => none) _
      (fun s => s.cells_dropUserFileCount user) (fun _ => rfl)
  | selectShareFile md5 filename =>
    exact onCell_query R (fun v : List ShareFile =>
      processResultOne (some (v.map (fun _ => ()))) false) (fun _ => rfl)
  | selectSharePv md5 filename =>
    exact onCell_query R (fun v : List ShareFile =>
      processResultOne (some (v.map ShareFile.pv)) true) (fun _ => rfl)
  | selectShareFilesByPv => exact absurd hc id
  | insertShareFile row =>
    exact onCell_update R (fun _ => true) (fun v : List ShareFile => v ++ [row]) _
      (fun s => s.cells_addShareFile row) (fun _ => rfl)
  | updateSharePv md5 filename pv =>
    exact onCell_update R (fun _ => true) (fun v : List ShareFile =>
        updateWhere (ShareFile.ofFile md5 filename) (fun r => { r with pv := pv }) v) _
      (fun s => s.cells_setSharePv md5 filename pv) (fun _ => rfl)
  | deleteShareFile user md5 filename =>
    exact onCell_update R (fun _ => true) (fun v : List ShareFile =>
        deleteWhere (ShareFile.named user md5 filename) v) _
      (fun s => s.cells_dropShareFile user md5 filename) (fun _ => rfl)
  | zsetExit member =>
    exact onCell_query R (fun v : ScoreSet String => (R.zlexcount v member : ℤ)) (fun _ => rfl)
  | zsetAdd score member =>
    exact onCell_update R (fun v : ScoreSet String => decide (member ∉ v))
      (fun v : ScoreSet String => v.add member score) _ (fun s => s.cells_setZset _) (fun _ => rfl)
  | zsetZrem member =>
    exact onCell_update R (fun v : ScoreSet String => decide (member ∈ v))
      (fun v : ScoreSet String => v.erase member) _ (fun s => s.cells_setZset _) (fun _ => rfl)
  | zsetIncrement member =>
    exact onCell_update R (fun _ => false)
      (fun v : ScoreSet String => v.add member ((v.score member).getD 0 + 1)) _
      (fun s => s.cells_setZset _) (fun _ => rfl)
  | zsetZcard => exact onCell_query R (fun v : ScoreSet String => (v.card : ℤ)) (fun _ => rfl)
  | zsetZrevrange fromPos endPos =>
    exact onCell_query R (fun v : ScoreSet String => some (zrevrange v fromPos endPos)) (fun _ => rfl)
  | zsetGetScore member =>
    exact onCell_query R (fun v : ScoreSet String => (v.score member).getD (-1)) (fun _ => rfl)
  | delZset =>
    exact onCell_update R (fun v : ScoreSet String => decide (0 < v.card))
      (fun _ : ScoreSet String => .empty) _ (fun s => s.cells_setZset _) (fun _ => rfl)
  | hashSet field value =>
    exact onCell_update R (fun _ => true) (fun _ : Option String => some value) _
      (fun s => s.cells_hset field value) (fun _ => rfl)
  | hashGet field => exact onCell_query R (fun v : Option String => v) (fun _ => rfl)
  | hashDel field =>
    exact onCell_update R (fun v : Option String => v.isSome) (fun _ : Option String => none) _
      (fun s => s.cells_hdel field) (exec_hashDel R field)
  | delHash => exact absurd hc id
  | getString key => exact onCell_query R (fun v : Option String => v) (fun _ => rfl)
  | removeFileFromStorage fileId =>
    exact onCell_update R (fun _ => true) (fun _ : Bool => false) _
      (fun s => s.cells_dropObject fileId) (fun _ => rfl)

end CServer.CloudDisk
