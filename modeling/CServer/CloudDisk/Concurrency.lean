import CServer.CloudDisk.StoreCells
import CServer.CloudDisk.Effects

/-!
# Two requests at once

Two FastCGI processes serve a request each, statement by statement, without a
transaction. When the statements of the two requests that do not commute come in
one order of the requests, the tables and the redis keys end as if one request had
been served after the other. When they do not, an update may be lost: the counts are read by
one statement and written by another.
-/
namespace CServer.CloudDisk

open Program Rows

/-- The requests that change the tables and the redis keys. -/
inductive Update where
  | dealMd5 (user md5 filename now : String)
  | saveFile (user md5 filename now : String)
  | delFile (user md5 filename : String)
  | shareFile (user md5 filename now : String)
  | cancelShareFile (user md5 filename : String)
  | pvFile (md5 filename : String)
  deriving DecidableEq, Repr

def Update.handler : Update → Handler Unit
  | .dealMd5 user md5 filename now => CloudDisk.dealMd5 user md5 filename now
  | .saveFile user md5 filename now => CloudDisk.saveFile user md5 filename now
  | .delFile user md5 filename => CloudDisk.delFile user md5 filename
  | .shareFile user md5 filename now => CloudDisk.shareFile user md5 filename now
  | .cancelShareFile user md5 filename => CloudDisk.cancelShareFile user md5 filename
  | .pvFile md5 filename => CloudDisk.pvFile md5 filename

/-- The cells a request may read or write. Only `del_file` removes stored objects. -/
def Update.Touches : Update → Cell → Prop
  | .dealMd5 user md5 filename _, i | .saveFile user md5 filename _, i =>
      i = .fileInfo md5 ∨ i = .userFile user md5 filename ∨ i = .userFileCount user
  | .delFile user md5 filename, i =>
      i = .filePublicZset ∨ i = .userFile user md5 filename ∨ i = .shareFile md5 filename ∨
        i = .userFileCount shareCountKey ∨ i = .fileNameHash (md5 ++ filename) ∨
        i = .userFileCount user ∨ i = .fileInfo md5 ∨ ∃ fileId, i = .object fileId
  | .shareFile user md5 filename _, i | .cancelShareFile user md5 filename, i =>
      i = .filePublicZset ∨ i = .userFile user md5 filename ∨ i = .shareFile md5 filename ∨
        i = .userFileCount shareCountKey ∨ i = .fileNameHash (md5 ++ filename)
  | .pvFile md5 filename, i =>
      i = .filePublicZset ∨ i = .shareFile md5 filename ∨ i = .fileNameHash (md5 ++ filename)

/-- The tables have the same rows, in whatever order, and the redis keys and the stored
objects are the same. -/
structure SameTables (s t : Store) : Prop where
  fileInfo : s.fileInfo.Perm t.fileInfo
  userFileList : s.userFileList.Perm t.userFileList
  shareFileList : s.shareFileList.Perm t.shareFileList
  userFileCount : s.userFileCount = t.userFileCount
  filePublicZset : s.filePublicZset = t.filePublicZset
  fileNameHash : s.fileNameHash = t.fileNameHash
  tokens : s.tokens = t.tokens
  objects : s.objects = t.objects

/-- Stores with the same cells have the same tables. -/
theorem SameTables.of_cells {s t : Store} (h : SameView Store.cells s t) : SameTables s t where
  fileInfo := perm_of_filter_key FileInfo.md5 (fun md5 => congrFun h (.fileInfo md5))
  userFileList := by
    refine perm_of_filter_key UserFile.key (fun key => ?_)
    have hcell : s.userFilesNamed key.1 key.2.1 key.2.2 = t.userFilesNamed key.1 key.2.1 key.2.2 :=
      congrFun h (.userFile key.1 key.2.1 key.2.2)
    simp only [Store.userFilesNamed, UserFile.named_eq_key] at hcell
    exact hcell
  shareFileList := by
    refine perm_of_filter_key ShareFile.fileKey (fun key => ?_)
    have hcell : s.sharesOf key.1 key.2 = t.sharesOf key.1 key.2 :=
      congrFun h (.shareFile key.1 key.2)
    simp only [Store.sharesOf, ShareFile.ofFile_eq_key] at hcell
    exact hcell
  userFileCount := Finmap.ext_lookup (fun user => congrFun h (.userFileCount user))
  filePublicZset := congrFun h .filePublicZset
  fileNameHash := Finmap.ext_lookup (fun field => congrFun h (.fileNameHash field))
  tokens := Finmap.ext_lookup (fun user => congrFun h (.token user))
  objects := by
    ext fileId
    have hcell : decide (fileId ∈ s.objects) = decide (fileId ∈ t.objects) :=
      congrFun h (.object fileId)
    exact decide_eq_decide.mp hcell

/-- The statement asks by a key and acts on one of the cells. -/
def Within (P : Cell → Prop) (β : Type) (c : Stmt β) : Prop :=
  Stmt.Keyed β c ∧ ∀ i, Stmt.cell β c = some i → P i

section within

variable {P : Cell → Prop} {user md5 filename now : String}

theorem within_cell {β : Type} {c : Stmt β} {i : Cell} (hk : Stmt.Keyed β c)
    (hc : Stmt.cell β c = some i) (hi : P i) : Issues (Within P) (issue c : Handler β) := by
  rw [issues_issue]
  refine ⟨hk, ?_⟩
  intro j hj
  rw [hc] at hj
  exact Option.some.inj hj ▸ hi

theorem within_mysqlQuery {c : Stmt Bool} {i : Cell} (hk : Stmt.Keyed Bool c)
    (hc : Stmt.cell Bool c = some i) (hi : P i) : Issues (Within P) (mysqlQuery c) := by
  refine (within_cell hk hc hi).bind (fun r => ?_)
  cases r <;> trivial

theorem within_connectRedis : Issues (Within P) connectRedis := by
  refine Issues.bind ((issues_issue _).mpr ⟨trivial, by simp [Stmt.cell]⟩) (fun r => ?_)
  cases r <;> trivial

theorem within_connectMysql : Issues (Within P) connectMysql := by
  refine Issues.bind ?_ (fun _ => ?_)
  · refine Issues.bind ((issues_issue _).mpr ⟨trivial, by simp [Stmt.cell]⟩) (fun r => ?_)
    cases r <;> trivial
  · exact Issues.bind ((issues_issue _).mpr ⟨trivial, by simp [Stmt.cell]⟩) (fun _ => trivial)

theorem within_increaseUserFileCount (h : P (.userFileCount user)) :
    Issues (Within P) (increaseUserFileCount user) := by
  have hselect := within_cell (c := .selectUserFileCount user) (i := .userFileCount user)
    trivial rfl h
  refine hselect.bind (fun result => ?_)
  cases result with
  | noRecord => exact within_mysqlQuery trivial rfl h
  | saved count => exact within_mysqlQuery trivial rfl h
  | _ =>
    refine hselect.bind (fun result => ?_)
    cases result <;> trivial

theorem within_decreaseUserFileCount (h : P (.userFileCount user)) :
    Issues (Within P) (decreaseUserFileCount user) := by
  have hselect := within_cell (c := .selectUserFileCount user) (i := .userFileCount user)
    trivial rfl h
  refine hselect.bind (fun result => ?_)
  cases result with
  | saved count =>
    exact Issues.ite (within_mysqlQuery trivial rfl h) (within_mysqlQuery trivial rfl h)
  | _ => trivial

theorem within_addFileOwner (hinfo : P (.fileInfo md5)) (hfile : P (.userFile user md5 filename))
    (hcount : P (.userFileCount user)) (count : ℤ) :
    Issues (Within P) (addFileOwner user md5 filename now count) := by
  refine Issues.bind (within_mysqlQuery trivial rfl hinfo) (fun _ => ?_)
  exact Issues.bind (within_mysqlQuery trivial rfl hfile)
    (fun _ => within_increaseUserFileCount hcount)

theorem within_dealMd5 (hinfo : P (.fileInfo md5)) (hfile : P (.userFile user md5 filename))
    (hcount : P (.userFileCount user)) :
    Issues (Within P) (dealMd5 user md5 filename now) := by
  refine Issues.bind within_connectMysql (fun _ => ?_)
  refine Issues.bind (within_cell trivial rfl hinfo) (fun result => ?_)
  cases result with
  | saved count =>
    refine Issues.bind (within_cell trivial rfl hfile) (fun owned => ?_)
    cases owned with
    | notSaved => trivial
    | _ => exact within_addFileOwner hinfo hfile hcount count
  | _ => trivial

theorem within_saveFile (hinfo : P (.fileInfo md5)) (hfile : P (.userFile user md5 filename))
    (hcount : P (.userFileCount user)) :
    Issues (Within P) (saveFile user md5 filename now) := by
  have hnew : Issues (Within P) (saveNewFile user md5 filename now) := by
    refine Issues.bind (within_cell trivial rfl hinfo) (fun result => ?_)
    cases result with
    | saved count => exact within_addFileOwner hinfo hfile hcount count
    | _ => trivial
  refine Issues.bind within_connectMysql (fun _ => ?_)
  refine Issues.bind (within_cell trivial rfl hfile) (fun owned => ?_)
  cases owned with
  | notSaved => trivial
  | _ => exact hnew

theorem within_setRanking {fileid : String} {score : ℤ} (hzset : P .filePublicZset)
    (hhash : P (.fileNameHash fileid)) :
    Issues (Within P) (setRanking score fileid filename) := by
  refine Issues.bind (within_cell trivial rfl hzset) (fun _ => ?_)
  exact Issues.bind (within_cell trivial rfl hhash) (fun _ => trivial)

theorem within_shareFile (hzset : P .filePublicZset) (hfile : P (.userFile user md5 filename))
    (hshare : P (.shareFile md5 filename)) (hcount : P (.userFileCount shareCountKey))
    (hhash : P (.fileNameHash (md5 ++ filename))) :
    Issues (Within P) (shareFile user md5 filename now) := by
  refine Issues.bind within_connectRedis (fun _ => ?_)
  refine Issues.bind within_connectMysql (fun _ => ?_)
  refine Issues.bind (within_cell trivial rfl hzset) (fun ret2 => ?_)
  refine Issues.ite trivial (Issues.ite ?_ trivial)
  refine Issues.bind (within_cell trivial rfl hshare) (fun listed => ?_)
  cases listed with
  | notSaved => exact Issues.bind (within_cell trivial rfl hzset) (fun _ => trivial)
  | _ =>
    refine Issues.bind (within_mysqlQuery trivial rfl hfile) (fun _ => ?_)
    refine Issues.bind (within_mysqlQuery trivial rfl hshare) (fun _ => ?_)
    refine Issues.bind (within_increaseUserFileCount hcount) (fun _ => ?_)
    exact within_setRanking hzset hhash

theorem within_cancelShareFile (hzset : P .filePublicZset)
    (hfile : P (.userFile user md5 filename)) (hshare : P (.shareFile md5 filename))
    (hcount : P (.userFileCount shareCountKey)) (hhash : P (.fileNameHash (md5 ++ filename))) :
    Issues (Within P) (cancelShareFile user md5 filename) := by
  refine Issues.bind within_connectRedis (fun _ => ?_)
  refine Issues.bind within_connectMysql (fun _ => ?_)
  refine Issues.bind (within_mysqlQuery trivial rfl hfile) (fun _ => ?_)
  refine Issues.bind (within_decreaseUserFileCount hcount) (fun _ => ?_)
  refine Issues.bind (within_mysqlQuery trivial rfl hshare) (fun _ => ?_)
  refine Issues.bind (within_mysqlQuery trivial rfl hzset) (fun _ => ?_)
  exact within_mysqlQuery trivial rfl hhash

theorem within_pvFile (hzset : P .filePublicZset) (hshare : P (.shareFile md5 filename))
    (hhash : P (.fileNameHash (md5 ++ filename))) :
    Issues (Within P) (pvFile md5 filename) := by
  refine Issues.bind within_connectRedis (fun _ => ?_)
  refine Issues.bind within_connectMysql (fun _ => ?_)
  refine Issues.bind (within_cell trivial rfl hshare) (fun result => ?_)
  cases result with
  | saved pv =>
    refine Issues.bind (within_mysqlQuery trivial rfl hshare) (fun _ => ?_)
    refine Issues.bind (within_cell trivial rfl hzset) (fun ret2 => ?_)
    refine Issues.ite ?_ (Issues.ite (within_setRanking hzset hhash) trivial)
    refine Issues.bind (within_cell trivial rfl hzset) (fun r => ?_)
    cases r <;> trivial
  | _ => trivial

theorem within_delFileShareFlags (hzset : P .filePublicZset)
    (hfile : P (.userFile user md5 filename)) :
    Issues (Within P) (delFileShareFlags user md5 filename) := by
  refine Issues.bind (within_cell trivial rfl hzset) (fun ret2 => ?_)
  refine Issues.ite trivial (Issues.ite ?_ trivial)
  refine Issues.bind (within_cell trivial rfl hfile) (fun result => ?_)
  cases result <;> trivial

theorem within_delFileUnshare (hzset : P .filePublicZset) (hshare : P (.shareFile md5 filename))
    (hcount : P (.userFileCount shareCountKey)) (hhash : P (.fileNameHash (md5 ++ filename)))
    (flag : Bool) : Issues (Within P) (delFileUnshare user md5 filename flag) := by
  refine Issues.bind (within_mysqlQuery trivial rfl hshare) (fun _ => ?_)
  refine Issues.bind (within_cell trivial rfl hcount) (fun result => ?_)
  cases result with
  | saved count =>
    refine Issues.bind (within_mysqlQuery trivial rfl hcount) (fun _ => ?_)
    cases flag with
    | false => trivial
    | true =>
      refine Issues.bind (within_cell trivial rfl hzset) (fun _ => ?_)
      exact Issues.bind (within_cell trivial rfl hhash) (fun _ => trivial)
  | _ => trivial

theorem within_delFileReference (hinfo : P (.fileInfo md5))
    (hobject : ∀ fileId, P (.object fileId)) : Issues (Within P) (delFileReference md5) := by
  refine Issues.bind (within_cell trivial rfl hinfo) (fun result => ?_)
  cases result with
  | saved count =>
    refine Issues.bind (within_mysqlQuery trivial rfl hinfo) (fun _ => ?_)
    refine Issues.ite ?_ trivial
    refine Issues.bind (within_cell trivial rfl hinfo) (fun result => ?_)
    cases result with
    | saved fileId =>
      refine Issues.bind (within_mysqlQuery trivial rfl hinfo) (fun _ => ?_)
      exact within_mysqlQuery trivial rfl (hobject fileId)
    | _ => trivial
  | _ => trivial

theorem within_delFile (hzset : P .filePublicZset) (hfile : P (.userFile user md5 filename))
    (hshare : P (.shareFile md5 filename)) (hcount : P (.userFileCount shareCountKey))
    (hhash : P (.fileNameHash (md5 ++ filename))) (hown : P (.userFileCount user))
    (hinfo : P (.fileInfo md5)) (hobject : ∀ fileId, P (.object fileId)) :
    Issues (Within P) (delFile user md5 filename) := by
  refine Issues.bind within_connectRedis (fun _ => ?_)
  refine Issues.bind within_connectMysql (fun _ => ?_)
  refine Issues.bind (within_delFileShareFlags hzset hfile) (fun flags => ?_)
  obtain ⟨share, flag⟩ := flags
  have hrest : Issues (Within P) (do
      decreaseUserFileCount user
      mysqlQuery (.deleteUserFile user md5 filename)
      delFileReference md5) := by
    refine Issues.bind (within_decreaseUserFileCount hown) (fun _ => ?_)
    refine Issues.bind (within_mysqlQuery trivial rfl hfile) (fun _ => ?_)
    exact within_delFileReference hinfo hobject
  show Issues (Within P) (delFileSteps user md5 filename share flag)
  rw [delFileSteps]
  refine Issues.ite ?_ hrest
  exact Issues.bind (within_delFileUnshare hzset hshare hcount hhash flag) (fun _ => hrest)

/-- A request asks by keys, and stays within its cells. -/
theorem Update.within (a : Update) : Issues (Within a.Touches) a.handler := by
  cases a with
  | dealMd5 => exact within_dealMd5 (.inl rfl) (.inr (.inl rfl)) (.inr (.inr rfl))
  | saveFile => exact within_saveFile (.inl rfl) (.inr (.inl rfl)) (.inr (.inr rfl))
  | delFile =>
    exact within_delFile (by simp [Touches]) (by simp [Touches]) (by simp [Touches])
      (by simp [Touches]) (by simp [Touches]) (by simp [Touches]) (by simp [Touches])
      (by simp [Touches])
  | shareFile =>
    exact within_shareFile (.inl rfl) (.inr (.inl rfl)) (.inr (.inr (.inl rfl)))
      (.inr (.inr (.inr (.inl rfl)))) (.inr (.inr (.inr (.inr rfl))))
  | cancelShareFile =>
    exact within_cancelShareFile (.inl rfl) (.inr (.inl rfl)) (.inr (.inr (.inl rfl)))
      (.inr (.inr (.inr (.inl rfl)))) (.inr (.inr (.inr (.inr rfl))))
  | pvFile => exact within_pvFile (.inl rfl) (.inr (.inl rfl)) (.inr (.inr rfl))

end within

/-- The statements whose order no store tells apart. -/
abbrev Commutes (R : RedisServer) (c d : Command Stmt) : Prop :=
  Commute (servers R) (SameView Store.cells) c d

/-- Statements on different cells commute. -/
theorem commutes_of_cells (R : RedisServer) {β γ : Type} {c : Stmt β} {d : Stmt γ}
    (hc : Stmt.Keyed β c) (hd : Stmt.Keyed γ d)
    (h : ∀ i, Stmt.cell β c = some i → Stmt.cell γ d ≠ some i) :
    Commutes R ⟨β, c⟩ ⟨γ, d⟩ := by
  have hc' := Stmt.onCell R β c hc
  have hd' := Stmt.onCell R γ d hd
  cases hi : Stmt.cell β c with
  | none =>
    rw [hi] at hc'
    exact commute_of_no_cell hc' hd'
  | some i =>
    cases hj : Stmt.cell γ d with
    | none =>
      rw [hj] at hd'
      exact (commute_of_no_cell hd' hc').symm sameView_equivalence
    | some j =>
      rw [hi] at hc'
      rw [hj] at hd'
      refine commute_of_cells_ne ?_ hc' hd'
      rintro rfl
      exact h i hi hj

/-- The results of `a` and `b` and the tables are those of serving `a` and then `b`. -/
def ServedInOrder (R : RedisServer) (s : Store) (a b : Update) (x y : Except ℤ Unit) (t : Store) :
    Prop :=
  ∃ u v, run (servers R) a.handler s = (x, u) ∧ run (servers R) b.handler u = (y, v) ∧
    SameTables v t

theorem ServedInOrder.of_serialEnd {R : RedisServer} {s t : Store} {a b : Update}
    {x y : Except ℤ Unit}
    (h : SerialEnd (servers R) (SameView Store.cells) a.handler b.handler s x y t) :
    ServedInOrder R s a b x y t := by
  obtain ⟨u, v, ha, hb, hv⟩ := h
  exact ⟨u, v, ha, hb, .of_cells hv⟩

theorem servers_congruence (R : RedisServer) :
    Congruence (servers R) Stmt.Keyed (SameView Store.cells) := congruence_of_cells (Stmt.onCell R)

/-- An interleaving of two requests whose statements conflict one way only ends as if the
requests had been served one after the other. -/
theorem interleaved_served_in_order (R : RedisServer) (s t : Store) (a b : Update)
    (commands : List (Bool × Command Stmt)) (x y : Except ℤ Unit)
    (h : Interleaves (servers R) a.handler b.handler s commands x y t)
    (hone : OneWay (Commutes R) commands) :
    ServedInOrder R s a b x y t ∨ ServedInOrder R s b a y x t := by
  have ha : Issues Stmt.Keyed a.handler := a.within.mono (fun _ _ hc => hc.1)
  have hb : Issues Stmt.Keyed b.handler := b.within.mono (fun _ _ hc => hc.1)
  rcases h.serial (servers_congruence R) ha hb hone with hab | hba
  · exact .inl (.of_serialEnd hab)
  · exact .inr (.of_serialEnd hba)

/-- The requests have no cell in common. -/
def Update.Apart (a b : Update) : Prop := ∀ i, a.Touches i → ¬ b.Touches i

theorem Update.Apart.symm {a b : Update} (h : a.Apart b) : b.Apart a := fun i hb ha => h i ha hb

theorem Update.Apart.firstFirst {R : RedisServer} {s t : Store} {a b : Update}
    {commands : List (Bool × Command Stmt)} {x y : Except ℤ Unit} (hab : a.Apart b)
    (h : Interleaves (servers R) a.handler b.handler s commands x y t) :
    FirstFirst (Commutes R) commands :=
  h.firstFirst a.within b.within (fun _ _ hc hd =>
    commutes_of_cells R hc.1 hd.1 (fun i hi hj => hab i (hc.2 i hi) (hd.2 i hj)))

/-- Requests without a common cell are served as in both orders, however they interleave. -/
theorem apart_served_in_order (R : RedisServer) {s t : Store} {a b : Update}
    {commands : List (Bool × Command Stmt)} {x y : Except ℤ Unit} (hab : a.Apart b)
    (h : Interleaves (servers R) a.handler b.handler s commands x y t) :
    ServedInOrder R s a b x y t ∧ ServedInOrder R s b a y x t := by
  have ha : Issues Stmt.Keyed a.handler := a.within.mono (fun _ _ hc => hc.1)
  have hb : Issues Stmt.Keyed b.handler := b.within.mono (fun _ _ hc => hc.1)
  have hr := servers_congruence R
  constructor
  · exact .of_serialEnd (h.serial_first hr ha hb (hab.firstFirst h))
  · exact .of_serialEnd (h.symm.serial_first hr hb ha (hab.symm.firstFirst h.symm))

/-- Getting a file and marking a download have no cell in common. -/
theorem dealMd5_apart_pvFile (user md5 filename now md5' filename' : String) :
    (Update.dealMd5 user md5 filename now).Apart (.pvFile md5' filename') := by
  rintro i (rfl | rfl | rfl) h <;> simp [Update.Touches] at h

/-- A stored file. -/
def storedPhoto : Store :=
  { Store.empty with fileInfo := [newFileInfo "a.txt" "m1" 3 "id1" "url1"] }

theorem interleaved_served_in_order_download : ∃ commands x y t,
    Interleaves (servers .exact) (Update.dealMd5 "milo" "m1" "a.txt" "t1").handler
      (Update.pvFile "m1" "a.txt").handler storedPhoto commands x y t ∧
    (ServedInOrder .exact storedPhoto (.dealMd5 "milo" "m1" "a.txt" "t1") (.pvFile "m1" "a.txt")
        x y t ∨
      ServedInOrder .exact storedPhoto (.pvFile "m1" "a.txt") (.dealMd5 "milo" "m1" "a.txt" "t1")
        y x t) := by
  obtain ⟨commands, h⟩ := interleave_interleaves (servers .exact) [true, false, true, false, false]
    (Update.dealMd5 "milo" "m1" "a.txt" "t1").handler (Update.pvFile "m1" "a.txt").handler
    storedPhoto
  exact ⟨commands, _, _, _, h, interleaved_served_in_order .exact storedPhoto _ _ _ commands _ _ h
    (.inl (Update.Apart.firstFirst (dealMd5_apart_pvFile _ _ _ _ _ _) h))⟩

section lostUpdate

variable (R : RedisServer) (s : Store)

/-- `deal_md5` reads the reference count, waits for another request, and writes. -/
theorem interleave_paused (q : Handler Unit) (user md5 filename now : String) {r : FileInfo}
    {rows : List FileInfo} (hinfo : s.fileInfoOf md5 = r :: rows)
    (hfile : (run (servers R) q s).2.userFilesNamed user md5 filename = []) :
    (interleave (servers R) [false, false, false] q (dealMd5 user md5 filename now) s).2.2 =
      (run (servers R) q s).2.addOwner (newUserFile user md5 now filename) r.count := by
  simp [dealMd5, connectMysql, mysqlQuery, issue, interleave, Stmt.exec, hinfo, run_call, hfile,
    run_addFileOwner]

theorem fileInfoOf_addOwner (file : UserFile) (count : ℤ) :
    (s.addOwner file count).fileInfoOf file.md5 =
      (s.fileInfoOf file.md5).map (fun r => { r with count := count + 1 }) :=
  fileInfoOf_setFileInfoCount s file.md5 (count + 1)

theorem userFilesNamed_addOwner {user md5 filename : String} {file : UserFile} {count : ℤ}
    (hu : file.user ≠ user) :
    (s.addOwner file count).userFilesNamed user md5 filename =
      s.userFilesNamed user md5 filename := by
  have hnamed : UserFile.named user md5 filename file = false := by simp [UserFile.named, hu]
  exact filter_append_one_of_neg hnamed

theorem gainFile_of_stored {user md5 filename now : String} {r : FileInfo} {rows : List FileInfo}
    (hinfo : s.fileInfoOf md5 = r :: rows) (hfile : s.userFilesNamed user md5 filename = []) :
    s.gainFile user md5 now filename = s.addOwner (newUserFile user md5 now filename) r.count := by
  simp [Store.gainFile, hinfo, hfile]

/-- One after the other, two users who get a stored file are both counted. -/
theorem servedInOrder_dealMd5_count {user user' md5 filename filename' now now' : String}
    (hu : user ≠ user') {r : FileInfo} {rows : List FileInfo}
    (hinfo : s.fileInfoOf md5 = r :: rows) (hfile : s.userFilesNamed user md5 filename = [])
    (hfile' : s.userFilesNamed user' md5 filename' = []) {x y : Except ℤ Unit} {t : Store}
    (h : ServedInOrder R s (.dealMd5 user md5 filename now) (.dealMd5 user' md5 filename' now')
      x y t) : ∀ r' ∈ t.fileInfo, r'.md5 = md5 → r'.count = r.count + 2 := by
  obtain ⟨u, v, ha, hb, hsame⟩ := h
  have hu₁ : u = s.addOwner (newUserFile user md5 now filename) r.count := by
    rw [← gainFile_of_stored s hinfo hfile, ← run_dealMd5 R]
    exact (congrArg Prod.snd ha).symm
  have hinfo₁ : u.fileInfoOf md5 = { r with count := r.count + 1 } ::
      rows.map (fun r' => { r' with count := r.count + 1 }) := by
    have hmap := fileInfoOf_addOwner s (newUserFile user md5 now filename) r.count
    rw [← hu₁] at hmap
    exact hmap.trans (by rw [newUserFile, hinfo, List.map_cons])
  have hfile₁ : u.userFilesNamed user' md5 filename' = [] := by
    rw [hu₁, userFilesNamed_addOwner s hu]
    exact hfile'
  have hv : v = u.addOwner (newUserFile user' md5 now' filename') (r.count + 1) := by
    rw [← gainFile_of_stored u hinfo₁ hfile₁, ← run_dealMd5 R]
    exact (congrArg Prod.snd hb).symm
  intro r' hr' hmd5
  have hmem : r' ∈ v.fileInfoOf md5 := v.mem_fileInfoOf.mpr ⟨hsame.fileInfo.mem_iff.mpr hr', hmd5⟩
  have hcounts := fileInfoOf_addOwner u (newUserFile user' md5 now' filename') (r.count + 1)
  rw [← hv] at hcounts
  rw [show v.fileInfoOf md5 = _ from hcounts] at hmem
  obtain ⟨r'', -, rfl⟩ := List.mem_map.mp hmem
  show r.count + 1 + 1 = r.count + 2
  omega

/-- Two users who get a stored file at once: some interleaving counts one of them, which no
order of serving them does. -/
theorem lostReference {user user' md5 filename filename' : String} (now now' : String)
    (hu : user ≠ user') (hinfo : s.fileInfoOf md5 ≠ [])
    (hfile : s.userFilesNamed user md5 filename = [])
    (hfile' : s.userFilesNamed user' md5 filename' = []) :
    ∃ commands x y t, Interleaves (servers R) (Update.dealMd5 user md5 filename now).handler
        (Update.dealMd5 user' md5 filename' now').handler s commands x y t ∧
      ¬ ServedInOrder R s (.dealMd5 user md5 filename now) (.dealMd5 user' md5 filename' now')
        x y t ∧
      ¬ ServedInOrder R s (.dealMd5 user' md5 filename' now') (.dealMd5 user md5 filename now)
        y x t := by
  obtain ⟨r, rows, hrows⟩ := List.exists_cons_of_ne_nil hinfo
  obtain ⟨commands, h⟩ := interleave_interleaves (servers R) [false, false, false]
    (dealMd5 user md5 filename now) (dealMd5 user' md5 filename' now') s
  have hfirst : (run (servers R) (dealMd5 user md5 filename now) s).2 =
      s.addOwner (newUserFile user md5 now filename) r.count := by
    rw [run_dealMd5, gainFile_of_stored s hrows hfile]
  have hstate := interleave_paused R s (dealMd5 user md5 filename now) user' md5 filename' now'
    hrows (by rw [hfirst, userFilesNamed_addOwner s hu]; exact hfile')
  rw [hstate, hfirst] at h
  -- both wrote the count they had read, one more than at the start
  have hmem : ∃ r' ∈ ((s.addOwner (newUserFile user md5 now filename) r.count).addOwner
      (newUserFile user' md5 now' filename') r.count).fileInfo,
      r'.md5 = md5 ∧ r'.count = r.count + 1 := by
    refine ⟨{ r with count := r.count + 1 }, ?_⟩
    have hcell := fileInfoOf_addOwner (s.addOwner (newUserFile user md5 now filename) r.count)
      (newUserFile user' md5 now' filename') r.count
    have hcell' := fileInfoOf_addOwner s (newUserFile user md5 now filename) r.count
    simp only [newUserFile] at hcell hcell'
    have hin : { r with count := r.count + 1 } ∈
        ((s.addOwner (newUserFile user md5 now filename) r.count).addOwner
          (newUserFile user' md5 now' filename') r.count).fileInfoOf md5 := by
      simp only [newUserFile]
      rw [hcell, hcell', hrows]
      exact List.mem_cons_self
    have hrow := (Store.mem_fileInfoOf _).mp hin
    exact ⟨hrow.1, hrow.2, rfl⟩
  obtain ⟨r', hr', hmd5, hcount⟩ := hmem
  refine ⟨commands, _, _, _, h, ?_, ?_⟩
  · intro hserved
    have htwo := servedInOrder_dealMd5_count R s hu hrows hfile hfile' hserved r' hr' hmd5
    omega
  · intro hserved
    have htwo := servedInOrder_dealMd5_count R s (Ne.symm hu) hrows hfile' hfile hserved r' hr' hmd5
    omega

end lostUpdate

theorem storedPhoto_breaks :
    ∃ commands x y t, Interleaves (servers .exact)
        (Update.dealMd5 "milo" "m1" "a.txt" "t1").handler
        (Update.dealMd5 "guest" "m1" "b.txt" "t2").handler storedPhoto commands x y t ∧
      ¬ ServedInOrder .exact storedPhoto (.dealMd5 "milo" "m1" "a.txt" "t1")
        (.dealMd5 "guest" "m1" "b.txt" "t2") x y t ∧
      ¬ ServedInOrder .exact storedPhoto (.dealMd5 "guest" "m1" "b.txt" "t2")
        (.dealMd5 "milo" "m1" "a.txt" "t1") y x t :=
  lostReference .exact storedPhoto "t1" "t2" (by decide) (by decide) (by decide) (by decide)

end CServer.CloudDisk
