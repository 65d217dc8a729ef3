import CServer.CloudDisk.CgiMain
import CServer.CloudDisk.Effects
import CServer.Foundation.Frame
import CServer.Foundation.Runs

/-!
# What a request may learn from the requests before it

For one request arriving at given stores, over every earlier sequence of requests
to the same process: is its answer and its effect always the same, and does it
touch or tell only what belongs to the user it names with that user's token? The
first half of the module follows the rows of one user through the handlers, the
second half the buffers through the loops.
-/
namespace CServer.CloudDisk

open Program Runs Rows

/-- The rows of a user: of the file list, of the share list, and the count. The name
that the number of shared files is kept under is nobody's count. -/
def Store.rowsOf (s : Store) (user : String) : List UserFile × List ShareFile × Option ℤ :=
  (s.filesOf user, s.shareFileList.filter (fun r => r.user = user),
    if user = shareCountKey then none else s.userFileCount.lookup user)

/-- The statement may change rows of the user. -/
def Stmt.Writes (user : String) : {β : Type} → Stmt β → Prop
  | _, .insertUserFile row => row.user = user
  | _, .updateSharedStatus owner _ _ _ | _, .updateUserFilePv owner _ _ _ => owner = user
  | _, .deleteUserFile owner _ _ | _, .deleteShareFile owner _ _ => owner = user
  | _, .insertShareFile row => row.user = user
  | _, .updateSharePv .. => True
  | _, .insertUserFileCount owner _ | _, .updateUserFileCount owner _ =>
      owner = user ∧ user ≠ shareCountKey
  | _, .deleteUserFileCount owner => owner = user ∧ user ≠ shareCountKey
  | _, _ => False

section Rows

variable {s : Store} {u user : String} {md5 filename now : String}

theorem filesOf_updateWhere {owner : String} {f : UserFile → UserFile} (hf : ∀ r, (f r).user = r.user)
    (hu : owner ≠ u) :
    (updateWhere (UserFile.named owner md5 filename) f s.userFileList).filter (fun r => r.user = u) =
      s.filesOf u := by
  rw [filter_updateWhere (by exact fun r _ => by rw [hf])]
  refine updateWhere_of_none fun r hr => ?_
  have hr' : r.user = u := of_decide_eq_true (List.mem_filter.mp hr).2
  simp [UserFile.named, hr', Ne.symm hu]

/-- A count that is nobody's, or another user's, is not in the view. -/
theorem rowsOf_count {owner : String} {t : Store} (h : ¬ (owner = u ∧ u ≠ shareCountKey))
    (hfiles : t.userFileList = s.userFileList) (hshares : t.shareFileList = s.shareFileList)
    (hcount : ∀ user, user ≠ owner → t.userFileCount.lookup user = s.userFileCount.lookup user) :
    t.rowsOf u = s.rowsOf u := by
  rw [Store.rowsOf, Store.rowsOf, Store.filesOf, Store.filesOf, hfiles, hshares]
  by_cases hu : u = shareCountKey
  · rw [if_pos hu, if_pos hu]
  · rw [if_neg hu, if_neg hu, hcount u (fun he => h ⟨he.symm, hu⟩)]

/-- A statement that does not write rows of the user leaves them. -/
theorem rowsOf_exec {R : RedisServer} {β : Type} (c : Stmt β) (h : ¬ c.Writes u) :
    (c.exec R s).2.rowsOf u = s.rowsOf u := by
  cases c with
  | insertUserFile row =>
    have hrow : row.user ≠ u := h
    simp [Stmt.exec, Store.rowsOf, Store.filesOf, Store.addUserFile, hrow]
  | updateSharedStatus owner md5 filename status =>
    have howner : owner ≠ u := h
    simp only [Stmt.exec, Store.rowsOf, Store.filesOf, Store.setSharedStatus, Prod.mk.injEq, and_true]
    exact filesOf_updateWhere (fun _ => rfl) howner
  | updateUserFilePv owner md5 filename pv =>
    have howner : owner ≠ u := h
    simp only [Stmt.exec, Store.rowsOf, Store.filesOf, Store.setUserFilePv, Prod.mk.injEq, and_true]
    exact filesOf_updateWhere (fun _ => rfl) howner
  | deleteUserFile owner md5 filename =>
    have hother : ∀ r ∈ s.userFileList, decide (r.user = u) = true →
        UserFile.named owner md5 filename r = false := by
      intro r _ hr
      have howner : u ≠ owner := fun he => h he.symm
      simp [UserFile.named, of_decide_eq_true hr, howner]
    simp [Stmt.exec, Store.rowsOf, Store.filesOf, Store.dropUserFile,
      filter_deleteWhere_of_disjoint hother]
  | deleteShareFile owner md5 filename =>
    have hother : ∀ r ∈ s.shareFileList, decide (r.user = u) = true →
        ShareFile.named owner md5 filename r = false := by
      intro r _ hr
      have howner : u ≠ owner := fun he => h he.symm
      simp [ShareFile.named, of_decide_eq_true hr, howner]
    simp [Stmt.exec, Store.rowsOf, Store.filesOf, Store.dropShareFile,
      filter_deleteWhere_of_disjoint hother]
  | insertShareFile row =>
    have hrow : row.user ≠ u := h
    simp [Stmt.exec, Store.rowsOf, Store.filesOf, Store.addShareFile, hrow]
  | updateSharePv md5 filename pv => exact absurd trivial h
  | insertUserFileCount owner count =>
    refine rowsOf_count h ?_ ?_ (fun user hu => ?_)
    all_goals
      simp only [Stmt.exec]
      split_ifs
    · rfl
    · rfl
    · rfl
    · rfl
    · rfl
    · exact Finmap.lookup_insert_of_ne _ hu
  | updateUserFileCount owner count =>
    refine rowsOf_count h ?_ ?_ (fun user hu => ?_)
    all_goals
      simp only [Stmt.exec]
      split_ifs
    · rfl
    · rfl
    · rfl
    · rfl
    · exact Finmap.lookup_insert_of_ne _ hu
    · rfl
  | deleteUserFileCount owner =>
    exact rowsOf_count h rfl rfl (fun user hu => Finmap.lookup_erase_ne hu)
  | _ => rfl

/-- The statements that write no rows of a user. -/
abbrev Spares (u : String) (β : Type) (c : Stmt β) : Prop := ¬ c.Writes u

theorem spares_issue {β : Type} {c : Stmt β} (h : Spares u β c) :
    Issues (Spares u) (issue c : Handler β) := (issues_issue c).mpr h

theorem spares_mysqlQuery {c : Stmt Bool} (h : Spares u Bool c) : Issues (Spares u) (mysqlQuery c) := by
  refine (spares_issue h).bind fun r => ?_
  cases r <;> trivial

theorem spares_connectMysql : Issues (Spares u) connectMysql := by
  refine (spares_mysqlQuery id).bind fun _ => ?_
  exact (spares_issue id).bind fun _ => trivial

theorem spares_connectRedis : Issues (Spares u) connectRedis :=
  spares_mysqlQuery id

theorem spares_increaseUserFileCount (h : ¬ (user = u ∧ u ≠ shareCountKey)) :
    Issues (Spares u) (increaseUserFileCount user) := by
  refine (spares_issue id).bind fun r => ?_
  cases r with
  | noRecord => exact spares_mysqlQuery h
  | saved count => exact spares_mysqlQuery h
  | notSaved =>
    refine (spares_issue id).bind fun r => ?_
    cases r <;> trivial
  | failed =>
    refine (spares_issue id).bind fun r => ?_
    cases r <;> trivial

theorem spares_decreaseUserFileCount (h : user ≠ u) :
    Issues (Spares u) (decreaseUserFileCount user) := by
  refine (spares_issue id).bind fun r => ?_
  cases r with
  | saved count =>
    simp only
    split_ifs
    · exact spares_mysqlQuery (fun hw => h hw.1)
    · exact spares_mysqlQuery (fun hw => h hw.1)
  | noRecord => trivial
  | notSaved => trivial
  | failed => trivial

theorem spares_addFileOwner (h : user ≠ u) (count : ℤ) :
    Issues (Spares u) (addFileOwner user md5 filename now count) := by
  refine (spares_mysqlQuery id).bind fun _ => (spares_mysqlQuery (by exact h)).bind fun _ => ?_
  exact spares_increaseUserFileCount fun hw => h hw.1

/-- `deal_md5` writes rows of its own user only. -/
theorem spares_dealMd5 (h : user ≠ u) : Issues (Spares u) (dealMd5 user md5 filename now) := by
  refine spares_connectMysql.bind fun _ => (spares_issue id).bind fun r => ?_
  cases r with
  | saved count =>
    refine (spares_issue id).bind fun r => ?_
    cases r with
    | notSaved => trivial
    | saved value => exact spares_addFileOwner h count
    | noRecord => exact spares_addFileOwner h count
    | failed => exact spares_addFileOwner h count
  | noRecord => trivial
  | notSaved => trivial
  | failed => trivial

/-- `share_file` writes rows of its own user, and the number of shared files. -/
theorem spares_shareFile (h : user ≠ u) : Issues (Spares u) (shareFile user md5 filename now) := by
  have hpublish : Issues (Spares u) (do
      mysqlQuery (.updateSharedStatus user md5 filename 1)
      mysqlQuery (.insertShareFile (newShareFile user md5 now filename))
      increaseUserFileCount shareCountKey
      setRanking 0 (md5 ++ filename) filename) := by
    refine (spares_mysqlQuery (by exact h)).bind fun _ => (spares_mysqlQuery (by exact h)).bind fun _ => ?_
    refine (spares_increaseUserFileCount fun hw => hw.2 hw.1.symm).bind fun _ => ?_
    exact (spares_issue id).bind fun _ => (spares_issue id).bind fun _ => trivial
  refine spares_connectRedis.bind fun _ => spares_connectMysql.bind fun _ => ?_
  refine (spares_issue id).bind fun ret2 => ?_
  split_ifs
  · trivial
  · refine (spares_issue id).bind fun r => ?_
    cases r with
    | notSaved => exact (spares_issue id).bind fun _ => trivial
    | saved value => exact hpublish
    | noRecord => exact hpublish
    | failed => exact hpublish
  · trivial

/-- `del_file` writes rows of its own user, and the number of shared files. -/
theorem spares_delFile (h : user ≠ u) : Issues (Spares u) (delFile user md5 filename) := by
  have hflags : Issues (Spares u) (delFileShareFlags user md5 filename) := by
    refine (spares_issue id).bind fun ret2 => ?_
    split_ifs
    · trivial
    · refine (spares_issue id).bind fun r => ?_
      cases r <;> trivial
    · trivial
  have hunshare : ∀ flag, Issues (Spares u) (delFileUnshare user md5 filename flag) := by
    intro flag
    refine (spares_mysqlQuery (by exact h)).bind fun _ => (spares_issue id).bind fun r => ?_
    cases r with
    | saved count =>
      refine (spares_mysqlQuery (by exact fun hw => hw.2 hw.1.symm)).bind fun _ => ?_
      cases flag with
      | false => trivial
      | true => exact (spares_issue id).bind fun _ => (spares_issue id).bind fun _ => trivial
    | noRecord => trivial
    | notSaved => trivial
    | failed => trivial
  have hreference : Issues (Spares u) (delFileReference md5) := by
    refine (spares_issue id).bind fun r => ?_
    cases r with
    | saved count =>
      refine (spares_mysqlQuery id).bind fun _ => ?_
      split_ifs
      · refine (spares_issue id).bind fun r => ?_
        cases r with
        | saved fileId => exact (spares_mysqlQuery id).bind fun _ => spares_mysqlQuery id
        | noRecord => trivial
        | notSaved => trivial
        | failed => trivial
      · trivial
    | noRecord => trivial
    | notSaved => trivial
    | failed => trivial
  have hrest : Issues (Spares u) (do
      decreaseUserFileCount user
      mysqlQuery (.deleteUserFile user md5 filename)
      delFileReference md5) :=
    (spares_decreaseUserFileCount h).bind fun _ => (spares_mysqlQuery (by exact h)).bind fun _ => hreference
  refine spares_connectRedis.bind fun _ => spares_connectMysql.bind fun _ => ?_
  refine hflags.bind fun r => ?_
  obtain ⟨share, flag⟩ := r
  simp only [delFileSteps]
  split_ifs
  · exact (hunshare flag).bind fun _ => hrest
  · exact hrest

/-- The download mark of a user's own file writes the user's row. -/
theorem spares_pvUserFile (h : user ≠ u) : Issues (Spares u) (pvUserFile user md5 filename) := by
  refine spares_connectMysql.bind fun _ => (spares_issue id).bind fun r => ?_
  cases r with
  | saved pv => exact spares_mysqlQuery h
  | noRecord => trivial
  | notSaved => trivial
  | failed => trivial

/-- A handler that spares a user leaves the user's rows. -/
theorem rowsOf_run {R : RedisServer} {α : Type} {p : Handler α} (hp : Issues (Spares u) p) :
    (run (servers R) p s).2.rowsOf u = s.rowsOf u :=
  run_frame (fun t : Store => t.rowsOf u) (fun _ c _ hc => rowsOf_exec c hc) hp s

end Rows

/-- The field of the request's own body. -/
def CgiRequest.field (r : CgiRequest) (name : String) : Option CJson :=
  match r.body with
  | .text (some object) => getObjectItem object name
  | _ => none

/-- The body names the user together with the token that redis holds for the user. -/
def CgiRequest.Names (r : CgiRequest) (s : Store) (u : String) : Prop :=
  ∃ user token, r.field "user" = some user ∧ user.valuestring = u ∧ r.field "token" = some token ∧
    s.tokens.lookup u = some token.valuestring

namespace CgiProgram

/-- The state of the process and the stores after the earlier requests. -/
def after (P : CgiProgram) (R : RedisServer) (m : Memory) (s : Store) (earlier : List CgiRequest) :
    Memory × Store :=
  finalState (P.step R) (m, s) earlier

/-- Whatever was served before, as long as the stores are the same, the answer and the
effect of the request are. -/
def Isolated (P : CgiProgram) (R : RedisServer) (m : Memory) (s : Store) (r : CgiRequest) : Prop :=
  ∀ s₁ earlier₁ s₂ earlier₂, (P.after R m s₁ earlier₁).2 = s → (P.after R m s₂ earlier₂).2 = s →
    (P.serve R (P.after R m s₁ earlier₁).1 s r).2.response =
        (P.serve R (P.after R m s₂ earlier₂).1 s r).2.response ∧
      (P.serve R (P.after R m s₁ earlier₁).1 s r).2.store =
        (P.serve R (P.after R m s₂ earlier₂).1 s r).2.store

/-- Whatever was served before, rows are changed and counts and lists are told only of a
user whom the request names with the right token. -/
def Confined (P : CgiProgram) (R : RedisServer) (m : Memory) (s : Store) (r : CgiRequest) : Prop :=
  ∀ s₀ earlier, (P.after R m s₀ earlier).2 = s → ∀ u,
    ((P.serve R (P.after R m s₀ earlier).1 s r).2.store.rowsOf u ≠ s.rowsOf u ∨
      (P.serve R (P.after R m s₀ earlier).1 s r).2.disclosed = some u) → r.Names s u

/-- The orders that `get_user_filelist` knows. -/
def listed (cmd : String) : Bool := cmd = "normal" ∨ cmd = "pvasc" ∨ cmd = "pvdesc"

end CgiProgram

namespace CgiRequest

variable (r : CgiRequest) (s : Store)

/-- No token can be accepted when the token of the body is not read: of the user of the
body, or of anybody when that is not read either. -/
def NoStaleToken : Prop :=
  match r.field "user" with
  | some user => user.valuestring ∉ s.tokens
  | none => s.tokens = ∅

/-- dealfile_cgi.c reads a token after the three other fields, and needs a command when
the token is accepted. -/
def SafeDealfile : Prop :=
  match r.body with
  | .text _ =>
    match r.field "user", r.field "md5", r.field "filename", r.field "token" with
    | some user, some _, some _, some token =>
        s.tokens.lookup user.valuestring = some token.valuestring →
          queryParseKeyValue r.query "cmd" ≠ none
    | _, _, _, _ => r.NoStaleToken s
  | _ => True

/-- The page of the list does not depend on numbers that were not read. -/
def PageGiven (cmd user : String) : Prop :=
  match r.field "start", r.field "count" with
  | some _, some _ => True
  | some start, none => CgiProgram.listed cmd → start.valueint < 0 ∨
      ((s.joinedFiles user).length : ℤ) ≤ start.valueint
  | none, _ => CgiProgram.listed cmd → s.joinedFiles user = []

/-- myfiles_cgi.c needs a command. A count is told whatever the token, so the token has to
be right; a list needs a right token and its page, or a token that is not accepted. -/
def SafeMyfiles : Prop :=
  match r.body with
  | .text _ =>
    match queryParseKeyValue r.query "cmd" with
    | none => False
    | some cmd =>
      match r.field "user", r.field "token" with
      | some user, some token =>
          if cmd = "count" then s.tokens.lookup user.valuestring = some token.valuestring
          else s.tokens.lookup user.valuestring = some token.valuestring →
            r.PageGiven s cmd user.valuestring
      | _, _ => cmd ≠ "count" ∧ r.NoStaleToken s
  | _ => True

end CgiRequest

def CgiProgram.Safe (P : CgiProgram) (s : Store) (r : CgiRequest) : Prop :=
  match P with
  | .dealfile => r.SafeDealfile s
  | .myfiles => r.SafeMyfiles s
  | .md5 => True

attribute [local simp] parseJson readFields copyUser copyToken copyMd5 copyFilename copyStart
  copyCount

section Serving

variable {R : RedisServer} {s : Store} {m : Memory} {r : CgiRequest} {u : String}

theorem run_verifyTokenProgram (user token : String) :
    (run (servers R) (verifyTokenProgram user token) s).1 =
      if s.tokens.lookup user = some token then .ok () else .error (-1) := by
  rw [verifyTokenProgram, verifyToken, run_bind, run_issue]
  simp only [servers_exec, Stmt.exec, if_true, run_bind, run_issue]
  cases h : s.tokens.lookup user with
  | none => simp
  | some tmpToken =>
    by_cases he : token = tmpToken
    · simp [he]
    · simp [he, Ne.symm he]

/-- Without the right token, dealfile_cgi.c answers the code of the token. -/
theorem actDealfile_refused {now : String} (h : s.tokens.lookup m.user ≠ some m.token) :
    actDealfile R s now m = ⟨s, .status "111", none⟩ := by
  rw [actDealfile, run_verifyTokenProgram, if_neg h]

theorem shareResponse_ne (ret : ℤ) : shareResponse ret ≠ .status "111" := by
  unfold shareResponse
  split_ifs <;> simp

theorem delResponse_ne (ret : ℤ) : delResponse ret ≠ .status "111" := by
  unfold delResponse
  split_ifs <;> simp

theorem pvResponse_ne (ret : ℤ) : pvResponse ret ≠ .status "111" ∧ pvResponse ret ≠ .nothing := by
  unfold pvResponse
  split_ifs <;> simp

/-- With the right token it answers otherwise. -/
theorem actDealfile_accepted {now : String} (h : s.tokens.lookup m.user = some m.token) :
    (actDealfile R s now m).response ≠ .status "111" := by
  rw [actDealfile, run_verifyTokenProgram, if_pos h]
  simp only
  split_ifs
  · exact shareResponse_ne _
  · exact delResponse_ne _
  · exact (pvResponse_ne _).1
  · simp

/-- dealfile_cgi.c changes rows of the buffered user only, with the right token, and tells
no count and no list. -/
theorem actDealfile_confined {now : String} :
    (actDealfile R s now m).disclosed = none ∧
      ((actDealfile R s now m).store.rowsOf u ≠ s.rowsOf u →
        u = m.user ∧ s.tokens.lookup m.user = some m.token) := by
  by_cases h : s.tokens.lookup m.user = some m.token
  · rw [actDealfile, run_verifyTokenProgram, if_pos h]
    have hrows : ∀ {p : Handler Unit}, (m.user ≠ u → Issues (Spares u) p) →
        (run (servers R) p s).2.rowsOf u ≠ s.rowsOf u → u = m.user := by
      intro p hp hne
      by_contra hu
      exact hne (rowsOf_run (hp (Ne.symm hu)))
    simp only [serveHandler]
    split_ifs
    · exact ⟨rfl, fun hne => ⟨hrows spares_shareFile hne, h⟩⟩
    · exact ⟨rfl, fun hne => ⟨hrows spares_delFile hne, h⟩⟩
    · exact ⟨rfl, fun hne => ⟨hrows spares_pvUserFile hne, h⟩⟩
    · exact ⟨rfl, fun hne => absurd rfl hne⟩
  · rw [actDealfile_refused h]
    exact ⟨rfl, fun hne => absurd rfl hne⟩

theorem actMd5_confined {now : String} :
    (actMd5 R s now m).disclosed = none ∧
      ((actMd5 R s now m).store.rowsOf u ≠ s.rowsOf u →
        u = m.user ∧ s.tokens.lookup m.user = some m.token) := by
  rw [actMd5, run_verifyTokenProgram]
  by_cases h : s.tokens.lookup m.user = some m.token
  · rw [if_pos h]
    refine ⟨rfl, fun hne => ⟨?_, h⟩⟩
    by_contra hu
    have hrows : (run (servers R) (dealMd5 m.user m.md5 m.filename now) s).2.rowsOf u = s.rowsOf u :=
      rowsOf_run (spares_dealMd5 (Ne.symm hu))
    exact hne hrows
  · rw [if_neg h]
    exact ⟨rfl, fun hne => absurd rfl hne⟩

/-- A count is told whatever the token. -/
theorem actCount_eq : ∃ num code, actCount R s m = ⟨s, .userFilesCount num code, some m.user⟩ := by
  unfold actCount
  cases (run (servers R) (getUserFilesCount m.user) s).1 with
  | ok line => exact ⟨_, _, rfl⟩
  | error e => exact ⟨_, _, rfl⟩

theorem actFilelist_refused (h : s.tokens.lookup m.user ≠ some m.token) :
    actFilelist R s m = ⟨s, .status "111", none⟩ := by
  rw [actFilelist, run_verifyTokenProgram, if_neg h]

theorem filelistResponse_ne (rows : Except ℤ (List (UserFile × FileInfo))) :
    filelistResponse rows ≠ .status "111" := by
  cases rows <;> simp [filelistResponse]

theorem filelistResponse_ne_count (rows : Except ℤ (List (UserFile × FileInfo))) (num : ℤ)
    (code : String) : filelistResponse rows ≠ .userFilesCount num code := by
  cases rows <;> simp [filelistResponse]

theorem actFilelist_accepted (h : s.tokens.lookup m.user = some m.token) :
    actFilelist R s m = ⟨s, filelistResponse
      (run (servers R) (getUserFilelist m.cmd m.user m.start m.count) s).1, some m.user⟩ := by
  rw [actFilelist, run_verifyTokenProgram, if_pos h]

theorem length_sort (order : ListOrder) (rows : List (UserFile × FileInfo)) :
    (order.sort rows).length = rows.length := by
  cases order <;> simp [ListOrder.sort, List.length_insertionSort]

/-- The order that a command asks for. -/
def orderOf (cmd : String) : Option ListOrder :=
  if cmd = "normal" then some .normal else if cmd = "pvasc" then some .pvasc
  else if cmd = "pvdesc" then some .pvdesc else none

theorem listed_iff (cmd : String) : CgiProgram.listed cmd ↔ ∃ order, orderOf cmd = some order := by
  unfold CgiProgram.listed orderOf
  split_ifs <;> simp_all

theorem getUserFilelist_of_order {cmd user : String} {start count : ℤ} {order : ListOrder}
    (h : orderOf cmd = some order) :
    filelistResponse (run (servers R) (getUserFilelist cmd user start count) s).1 =
      match limit start count (order.sort (s.joinedFiles user)) with
      | some (row :: rows) => .files (row :: rows)
      | _ => .status "015" := by
  have hrun : (run (servers R) (getUserFilelist cmd user start count) s).1 =
      (run (servers R) (queryUserFilelist order user start count) s).1 := by
    rw [getUserFilelist, run_bind, run_connectMysql]
    unfold orderOf at h
    split_ifs at h with h1 h2 h3
    · cases h
      simp only [h1, if_true]
      rfl
    · cases h
      simp only [h2, if_true]
      rfl
    · cases h
      simp only [h3, if_true]
      rfl
  rw [hrun, queryUserFilelist, run_bind, run_issue]
  simp only [servers_exec, Stmt.exec]
  rcases limit start count (order.sort (s.joinedFiles user)) with _ | _ | ⟨row, rows⟩ <;> rfl

theorem getUserFilelist_of_none {cmd user : String} {start count : ℤ} (h : orderOf cmd = none) :
    filelistResponse (run (servers R) (getUserFilelist cmd user start count) s).1 =
      .status "015" := by
  rw [getUserFilelist, run_bind, run_connectMysql]
  unfold orderOf at h
  split_ifs at h with h1 h2 h3
  simp [h1, h2, h3, gotoEnd, filelistResponse]

/-- A page that starts outside the list is answered as a failure, whatever its length. -/
theorem getUserFilelist_outside {cmd user : String} {start count : ℤ}
    (h : CgiProgram.listed cmd → start < 0 ∨ ((s.joinedFiles user).length : ℤ) ≤ start) :
    filelistResponse (run (servers R) (getUserFilelist cmd user start count) s).1 =
      .status "015" := by
  cases horder : orderOf cmd with
  | none => exact getUserFilelist_of_none horder
  | some order =>
    rw [getUserFilelist_of_order horder, limit]
    by_cases hneg : start < 0 ∨ count < 0
    · rw [if_pos hneg]
    · have hlen : (order.sort (s.joinedFiles user)).length ≤ start.toNat := by
        rw [length_sort]
        have hout := h ((listed_iff cmd).mpr ⟨order, horder⟩)
        omega
      rw [if_neg hneg, List.drop_eq_nil_of_le hlen, List.take_nil]

/-- A page of one row that starts inside the list has a row, and one of -1 rows fails. -/
theorem getUserFilelist_inside {cmd user : String} {start : ℤ} (hlisted : CgiProgram.listed cmd)
    (h0 : 0 ≤ start) (h : start < (s.joinedFiles user).length) :
    filelistResponse (run (servers R) (getUserFilelist cmd user start 1) s).1 ≠
      filelistResponse (run (servers R) (getUserFilelist cmd user start (-1)) s).1 := by
  obtain ⟨order, horder⟩ := (listed_iff cmd).mp hlisted
  have hlen : start.toNat < (order.sort (s.joinedFiles user)).length := by
    rw [length_sort]
    omega
  have hpage : ∃ row, ((order.sort (s.joinedFiles user)).drop start.toNat).take (1 : ℤ).toNat =
      [row] := by
    rw [List.drop_eq_getElem_cons hlen]
    exact ⟨_, rfl⟩
  obtain ⟨row, hrow⟩ := hpage
  rw [getUserFilelist_of_order horder, getUserFilelist_of_order horder, limit, limit,
    if_neg (by omega), if_pos (by omega), hrow]
  simp

/-- A negative start always fails. -/
theorem getUserFilelist_negative {cmd user : String} {count : ℤ} :
    filelistResponse (run (servers R) (getUserFilelist cmd user (-1) count) s).1 =
      .status "015" :=
  getUserFilelist_outside fun _ => .inl (by decide)

/-- Reading the fields of dealfile_cgi.c: all of them replace what the buffers held; otherwise
the token is left, and the user too unless the body has one. -/
theorem getJsonInfo_cases (root : Option (List CJson)) (hr : r.body = .text root) :
    (∃ user md5 filename token, r.field "user" = some user ∧ r.field "md5" = some md5 ∧
      r.field "filename" = some filename ∧ r.field "token" = some token ∧
      ∀ m, (getJsonInfo root m).2 =
        { m with
          user := user.valuestring, md5 := md5.valuestring
          filename := filename.valuestring, token := token.valuestring }) ∨
    ((∀ s, r.SafeDealfile s ↔ r.NoStaleToken s) ∧ ∀ m, (getJsonInfo root m).2.cmd = m.cmd ∧
      (getJsonInfo root m).2.token = m.token ∧
      (getJsonInfo root m).2.user = ((r.field "user").map CJson.valuestring).getD m.user) := by
  cases root with
  | none =>
    right
    simp [CgiRequest.SafeDealfile, CgiRequest.field, hr, getJsonInfo]
  | some object =>
    simp only [CgiRequest.SafeDealfile, CgiRequest.field, hr, getJsonInfo, parseJson, readFields]
    cases getObjectItem object "user" with
    | none => simp
    | some user =>
      cases getObjectItem object "md5" with
      | none => simp
      | some md5 =>
        cases getObjectItem object "filename" with
        | none => simp
        | some filename =>
          cases getObjectItem object "token" with
          | none => simp
          | some token => simp

theorem getCountJsonInfo_cases (root : Option (List CJson)) (hr : r.body = .text root) :
    (∃ user token, r.field "user" = some user ∧ r.field "token" = some token ∧
      ∀ m, (getCountJsonInfo root m).2 =
        { m with user := user.valuestring, token := token.valuestring }) ∨
    ((r.field "user" = none ∨ r.field "token" = none) ∧
      ∀ m, (getCountJsonInfo root m).2.user = ((r.field "user").map CJson.valuestring).getD m.user) := by
  cases root with
  | none =>
    right
    simp [CgiRequest.field, hr, getCountJsonInfo]
  | some object =>
    simp only [CgiRequest.field, hr, getCountJsonInfo, parseJson, readFields]
    cases getObjectItem object "user" with
    | none => simp
    | some user =>
      cases getObjectItem object "token" with
      | none => simp
      | some token => simp

theorem getFileslistJsonInfo_cases (root : Option (List CJson)) (hr : r.body = .text root) :
    (∃ user token, r.field "user" = some user ∧ r.field "token" = some token ∧
      ∀ m, (getFileslistJsonInfo root m).2 =
        { m with
          user := user.valuestring, token := token.valuestring
          start := ((r.field "start").map CJson.valueint).getD m.start
          count := match r.field "start", r.field "count" with
            | some _, some count => count.valueint
            | _, _ => m.count }) ∨
    ((r.field "user" = none ∨ r.field "token" = none) ∧
      ∀ m, (getFileslistJsonInfo root m).2.token = m.token ∧
        (getFileslistJsonInfo root m).2.user =
          ((r.field "user").map CJson.valuestring).getD m.user) := by
  cases root with
  | none =>
    right
    simp [CgiRequest.field, hr, getFileslistJsonInfo]
  | some object =>
    simp only [CgiRequest.field, hr, getFileslistJsonInfo, parseJson, readFields]
    cases getObjectItem object "user" with
    | none => simp
    | some user =>
      cases getObjectItem object "token" with
      | none => simp
      | some token =>
        left
        refine ⟨user, token, rfl, rfl, fun m => ?_⟩
        cases getObjectItem object "start" with
        | none => simp
        | some start =>
          cases getObjectItem object "count" with
          | none => simp
          | some count => simp

/-- md5_cgi.c goes on only with all four fields. -/
theorem getMd5Info_cases (root : Option (List CJson)) (hr : r.body = .text root) :
    (getMd5Info root .zero).1 ≠ 0 ∨
      (∃ user token, r.field "user" = some user ∧ r.field "token" = some token ∧
        (getMd5Info root .zero).2.user = user.valuestring ∧
        (getMd5Info root .zero).2.token = token.valuestring) := by
  cases root with
  | none => simp [getMd5Info]
  | some object =>
    simp only [CgiRequest.field, hr, getMd5Info, parseJson, readFields]
    cases getObjectItem object "user" with
    | none => simp
    | some user =>
      cases getObjectItem object "md5" with
      | none => simp
      | some md5 =>
        cases getObjectItem object "fileName" with
        | none => simp
        | some filename =>
          cases getObjectItem object "token" with
          | none => simp
          | some token => simp

end Serving

section Earlier

variable (R : RedisServer) (m : Memory) (s : Store) (user token : String) (start count : ℤ)

/-- A request that fills the buffers under a command that no program knows. -/
def fillRequest : CgiRequest where
  query := "cmd=noop"
  body := .text (some [⟨"user", user, 0⟩, ⟨"token", token, 0⟩, ⟨"md5", "", 0⟩,
    ⟨"filename", "", 0⟩, ⟨"start", "", start⟩, ⟨"count", "", count⟩])
  now := ""
  query_complete := by decide

/-- A request without data, which sets the command only. -/
def cmdRequest (query : String) (h : afterKey "cmd".toList query.toList ≠ some []) : CgiRequest where
  query := query
  body := .noData
  now := ""
  query_complete := h

theorem readCmd_some {query cmd : String} (h : queryParseKeyValue query "cmd" = some cmd)
    (m : Memory) : readCmd query m = { m with cmd := cmd } := by
  rw [readCmd, h]

theorem readCmd_none {query : String} (h : queryParseKeyValue query "cmd" = none) (m : Memory) :
    readCmd query m = m := by
  rw [readCmd, h]

theorem readCmd_user (query : String) : (readCmd query m).user = m.user := by
  unfold readCmd
  split <;> rfl

theorem readCmd_token (query : String) : (readCmd query m).token = m.token := by
  unfold readCmd
  split <;> rfl

theorem parse_noop : queryParseKeyValue "cmd=noop" "cmd" = some "noop" := by decide

/-- Earlier requests can leave any texts and numbers in the buffers of dealfile_cgi.c and
myfiles_cgi.c without touching the stores. -/
theorem exists_earlier {P : CgiProgram} (hP : P ≠ .md5) {query cmd : String}
    (hquery : afterKey "cmd".toList query.toList ≠ some [])
    (hcmd : queryParseKeyValue query "cmd" = some cmd) :
    ∃ earlier, (P.after R m s earlier).2 = s ∧ (P.after R m s earlier).1.cmd = cmd ∧
      (P.after R m s earlier).1.user = user ∧ (P.after R m s earlier).1.token = token ∧
      (P = .myfiles → (P.after R m s earlier).1.start = start ∧
        (P.after R m s earlier).1.count = count) := by
  refine ⟨[fillRequest user token start count, cmdRequest query hquery], ?_⟩
  cases P with
  | dealfile =>
    have hread : getJsonInfo (some [⟨"user", user, 0⟩, ⟨"token", token, 0⟩, ⟨"md5", "", 0⟩,
        ⟨"filename", "", 0⟩, ⟨"start", "", start⟩, ⟨"count", "", count⟩]) { m with cmd := "noop" } =
          (0, { m with cmd := "noop", user := user, token := token, md5 := "", filename := "" }) := by
      simp [getJsonInfo, getObjectItem]
    have hstore : ∀ m' : Memory, m'.cmd = "noop" → (actDealfile R s "" m').store = s := by
      intro m' hm'
      by_cases h : s.tokens.lookup m'.user = some m'.token
      · rw [actDealfile, run_verifyTokenProgram, if_pos h]
        simp [hm']
      · rw [actDealfile_refused h]
    simp [CgiProgram.after, finalState, CgiProgram.step, CgiProgram.serve, serveDealfile, fillRequest,
      cmdRequest, readCmd_some parse_noop, readCmd_some hcmd, hread, hstore]
  | myfiles =>
    have hread : getFileslistJsonInfo (some [⟨"user", user, 0⟩, ⟨"token", token, 0⟩, ⟨"md5", "", 0⟩,
        ⟨"filename", "", 0⟩, ⟨"start", "", start⟩, ⟨"count", "", count⟩]) { m with cmd := "noop" } =
          (0, { m with cmd := "noop", user := user, token := token, start := start, count := count }) := by
      simp [getFileslistJsonInfo, getObjectItem]
    have hstore : ∀ m' : Memory, (actFilelist R s m').store = s := by
      intro m'
      rw [actFilelist, run_verifyTokenProgram]
      split_ifs <;> rfl
    simp [CgiProgram.after, finalState, CgiProgram.step, CgiProgram.serve, serveMyfiles, fillRequest,
      cmdRequest, readCmd_some parse_noop, readCmd_some hcmd, hread, hstore]
  | md5 => exact absurd rfl hP

end Earlier

section Dealfile

variable {R : RedisServer} {s : Store} {m : Memory} {r : CgiRequest}

theorem actDealfile_congr {now : String} {m' : Memory} (hcmd : m.cmd = m'.cmd)
    (huser : m.user = m'.user) (htoken : m.token = m'.token) (hmd5 : m.md5 = m'.md5)
    (hname : m.filename = m'.filename) : actDealfile R s now m = actDealfile R s now m' := by
  simp only [actDealfile, hcmd, huser, htoken, hmd5, hname]

/-- Nobody's token is accepted when the buffered user is the body's, or anybody. -/
theorem noStaleToken_lookup (h : r.NoStaleToken s) (user : String) :
    s.tokens.lookup (((r.field "user").map CJson.valuestring).getD user) = none := by
  unfold CgiRequest.NoStaleToken at h
  cases huser : r.field "user" with
  | none =>
    rw [huser] at h
    simp only at h
    rw [h]
    exact Finmap.lookup_empty _
  | some child =>
    rw [huser] at h
    exact Finmap.lookup_eq_none.mpr h

/-- Otherwise some token is. -/
theorem exists_staleToken (h : ¬ r.NoStaleToken s) :
    ∃ user token, s.tokens.lookup (((r.field "user").map CJson.valuestring).getD user) =
      some token := by
  unfold CgiRequest.NoStaleToken at h
  cases huser : r.field "user" with
  | none =>
    rw [huser] at h
    simp only at h
    by_contra hnone
    push Not at hnone
    refine h (Finmap.ext_lookup fun key => ?_)
    rw [Finmap.lookup_empty, Option.eq_none_iff_forall_ne_some]
    exact hnone key
  | some child =>
    rw [huser] at h
    simp only [not_not] at h
    obtain ⟨token, htoken⟩ := Finmap.mem_iff.mp h
    exact ⟨"", token, htoken⟩

/-- A safe request is served alike from all buffers. -/
theorem serveDealfile_const (h : r.SafeDealfile s) (m m' : Memory) :
    (serveDealfile R s m r).2 = (serveDealfile R s m' r).2 := by
  cases hr : r.body with
  | noData => simp [serveDealfile, hr]
  | unread => simp [serveDealfile, hr]
  | text root =>
    simp only [serveDealfile, hr]
    rcases getJsonInfo_cases root hr with ⟨user, md5, filename, token, hu, hm, hf, ht, hread⟩ | hstale
    · simp only [CgiRequest.SafeDealfile, hr, hu, hm, hf, ht] at h
      by_cases htoken : s.tokens.lookup user.valuestring = some token.valuestring
      · obtain ⟨cmd, hcmd⟩ := Option.ne_none_iff_exists'.mp (h htoken)
        exact actDealfile_congr (by simp [hread, readCmd_some hcmd]) (by simp [hread])
          (by simp [hread]) (by simp [hread]) (by simp [hread])
      · rw [actDealfile_refused (by rw [hread]; exact htoken),
          actDealfile_refused (by rw [hread]; exact htoken)]
    · have hnone := noStaleToken_lookup ((hstale.1 s).mp h)
      have hrefused : ∀ m : Memory, s.tokens.lookup (getJsonInfo root m).2.user ≠
          some (getJsonInfo root m).2.token := by
        intro m
        rw [(hstale.2 m).2.2, hnone]
        simp
      rw [actDealfile_refused (hrefused _), actDealfile_refused (hrefused _)]

/-- It changes only rows of the user it names with the right token. -/
theorem serveDealfile_names (h : r.SafeDealfile s) (m : Memory) (u : String)
    (hu : (serveDealfile R s m r).2.store.rowsOf u ≠ s.rowsOf u ∨
      (serveDealfile R s m r).2.disclosed = some u) : r.Names s u := by
  cases hr : r.body with
  | noData => simp [serveDealfile, hr] at hu
  | unread => simp [serveDealfile, hr] at hu
  | text root =>
    simp only [serveDealfile, hr] at hu
    have hconfined : (actDealfile R s r.now (getJsonInfo root (readCmd r.query m)).2).disclosed =
        none ∧ (_ → u = _ ∧ _) := actDealfile_confined
    rw [hconfined.1] at hu
    obtain ⟨he, htoken⟩ := hconfined.2 (hu.resolve_right (by simp))
    rcases getJsonInfo_cases root hr with ⟨user, md5, filename, token, huser, _, _, ht, hread⟩ | hstale
    · rw [hread] at he htoken
      exact ⟨user, token, huser, he.symm, ht, he ▸ htoken⟩
    · have hlookup := noStaleToken_lookup ((hstale.1 s).mp h) (readCmd r.query m).user
      rw [(hstale.2 _).2.2, hlookup] at htoken
      exact absurd htoken (by simp)

/-- A request that is not safe is answered differently after some earlier requests. -/
theorem safeDealfile_of_isolated (h : CgiProgram.dealfile.Isolated R m s r) : r.SafeDealfile s := by
  by_contra hsafe
  -- with any two fillings of the buffers the answers agree
  have hsame : ∀ user token user' token' {query cmd query' cmd' : String},
      afterKey "cmd".toList query.toList ≠ some [] → queryParseKeyValue query "cmd" = some cmd →
      afterKey "cmd".toList query'.toList ≠ some [] → queryParseKeyValue query' "cmd" = some cmd' →
      ∃ m₁ m₂ : Memory, m₁.cmd = cmd ∧ m₁.user = user ∧ m₁.token = token ∧ m₂.cmd = cmd' ∧
        m₂.user = user' ∧ m₂.token = token' ∧
          (serveDealfile R s m₁ r).2.response = (serveDealfile R s m₂ r).2.response := by
    intro user token user' token' query cmd query' cmd' hq hc hq' hc'
    obtain ⟨earlier₁, hs₁, hcmd₁, huser₁, htoken₁, -⟩ :=
      exists_earlier R m s user token 0 0 (P := .dealfile) (by decide) hq hc
    obtain ⟨earlier₂, hs₂, hcmd₂, huser₂, htoken₂, -⟩ :=
      exists_earlier R m s user' token' 0 0 (P := .dealfile) (by decide) hq' hc'
    exact ⟨_, _, hcmd₁, huser₁, htoken₁, hcmd₂, huser₂, htoken₂, (h s _ s _ hs₁ hs₂).1⟩
  have hnoop : afterKey "cmd".toList "cmd=noop".toList ≠ some [] := by decide
  have hpv : afterKey "cmd".toList "cmd=pv".toList ≠ some [] := by decide
  have parse_pv : queryParseKeyValue "cmd=pv" "cmd" = some "pv" := by decide
  cases hr : r.body with
  | noData => simp [CgiRequest.SafeDealfile, hr] at hsafe
  | unread => simp [CgiRequest.SafeDealfile, hr] at hsafe
  | text root =>
    simp only [serveDealfile, hr] at hsame
    rcases getJsonInfo_cases root hr with ⟨user, md5, filename, token, hu, hm, hf, ht, hread⟩ | hstale
    · -- the token is right and the command is stale
      simp only [CgiRequest.SafeDealfile, hr, hu, hm, hf, ht] at hsafe
      push Not at hsafe
      obtain ⟨htoken, hnone⟩ := hsafe
      obtain ⟨m₁, m₂, hcmd₁, -, -, hcmd₂, -, -, he⟩ := hsame "" "" "" "" hpv parse_pv
        hnoop parse_noop
      have hne : (actDealfile R s r.now (getJsonInfo root (readCmd r.query m₁)).2).response ≠
          .nothing := by
        rw [readCmd_none hnone, hread, actDealfile, run_verifyTokenProgram, if_pos htoken]
        simp [hcmd₁, serveHandler, pvResponse_ne]
      rw [he, readCmd_none hnone, hread, actDealfile, run_verifyTokenProgram, if_pos htoken] at hne
      simp [hcmd₂] at hne
    · -- the token is stale
      obtain ⟨user, token, htoken⟩ := exists_staleToken (mt (hstale.1 s).mpr hsafe)
      obtain ⟨m₁, m₂, -, huser₁, htoken₁, -, huser₂, htoken₂, he⟩ :=
        hsame user token user (token ++ "x") hnoop parse_noop hnoop parse_noop
      have haccepted : s.tokens.lookup (getJsonInfo root (readCmd r.query m₁)).2.user =
          some (getJsonInfo root (readCmd r.query m₁)).2.token := by
        rw [(hstale.2 _).2.1, (hstale.2 _).2.2, readCmd_user, readCmd_token, huser₁, htoken₁, htoken]
      have hrefused : s.tokens.lookup (getJsonInfo root (readCmd r.query m₂)).2.user ≠
          some (getJsonInfo root (readCmd r.query m₂)).2.token := by
        rw [(hstale.2 _).2.1, (hstale.2 _).2.2, readCmd_user, readCmd_token, huser₂, htoken₂, htoken]
        simp [String.ext_iff]
      have hne : (actDealfile R s r.now _).response ≠ _ := actDealfile_accepted haccepted
      rw [he, actDealfile_refused hrefused] at hne
      exact hne rfl

end Dealfile

section Myfiles

variable {R : RedisServer} {s : Store} {m : Memory} {r : CgiRequest}

theorem actCount_congr {m' : Memory} (huser : m.user = m'.user) (htoken : m.token = m'.token) :
    actCount R s m = actCount R s m' := by
  simp only [actCount, huser, htoken]

section Cases

variable {root : Option (List CJson)} {cmd : String} (hr : r.body = .text root)
  (hcmd : queryParseKeyValue r.query "cmd" = some cmd)

include hr hcmd

theorem safeMyfiles_given {user token : CJson} (hu : r.field "user" = some user)
    (ht : r.field "token" = some token) : r.SafeMyfiles s ↔
      if cmd = "count" then s.tokens.lookup user.valuestring = some token.valuestring
      else s.tokens.lookup user.valuestring = some token.valuestring →
        r.PageGiven s cmd user.valuestring := by
  simp only [CgiRequest.SafeMyfiles, hr, hcmd, hu, ht]

theorem safeMyfiles_missing (h : r.field "user" = none ∨ r.field "token" = none) :
    r.SafeMyfiles s ↔ cmd ≠ "count" ∧ r.NoStaleToken s := by
  simp only [CgiRequest.SafeMyfiles, hr, hcmd]
  rcases h with h | h
  · rw [h]
  · rw [h]
    cases r.field "user" <;> rfl

end Cases

/-- The answer of a list whose user, token and page do not depend on the buffers. -/
theorem actFilelist_page {cmd : String} {user : CJson} (h : r.PageGiven s cmd user.valuestring)
    (m m' : Memory) :
    filelistResponse (run (servers R) (getUserFilelist cmd user.valuestring
        (((r.field "start").map CJson.valueint).getD m.start)
        (match r.field "start", r.field "count" with
          | some _, some count => count.valueint
          | _, _ => m.count)) s).1 =
      filelistResponse (run (servers R) (getUserFilelist cmd user.valuestring
        (((r.field "start").map CJson.valueint).getD m'.start)
        (match r.field "start", r.field "count" with
          | some _, some count => count.valueint
          | _, _ => m'.count)) s).1 := by
  unfold CgiRequest.PageGiven at h
  cases hstart : r.field "start" with
  | none =>
    simp only [hstart] at h
    have hout : ∀ start count, filelistResponse (run (servers R)
        (getUserFilelist cmd user.valuestring start count) s).1 = .status "015" := by
      intro start count
      refine getUserFilelist_outside fun hl => ?_
      rw [h hl]
      exact lt_or_ge start 0
    rw [hout, hout]
  | some start =>
    cases hcount : r.field "count" with
    | none =>
      simp only [hstart, hcount] at h
      simp only [Option.map_some, Option.getD_some]
      rw [getUserFilelist_outside h, getUserFilelist_outside h]
    | some count => rfl

/-- A safe request is served alike from all buffers. -/
theorem serveMyfiles_const (h : r.SafeMyfiles s) (m m' : Memory) :
    (serveMyfiles R s m r).2 = (serveMyfiles R s m' r).2 := by
  cases hr : r.body with
  | noData => simp [serveMyfiles, hr]
  | unread => simp [serveMyfiles, hr]
  | text root =>
    cases hcmd : queryParseKeyValue r.query "cmd" with
    | none => simp [CgiRequest.SafeMyfiles, hr, hcmd] at h
    | some cmd =>
      simp only [serveMyfiles, hr, readCmd_some hcmd]
      by_cases hcount : cmd = "count"
      · simp only [hcount, if_true]
        rcases getCountJsonInfo_cases root hr with ⟨user, token, hu, ht, hread⟩ | ⟨hmissing, -⟩
        · exact actCount_congr (by rw [hread, hread]) (by rw [hread, hread])
        · exact absurd hcount ((safeMyfiles_missing hr hcmd hmissing).mp h).1
      · simp only [if_neg hcount]
        rcases getFileslistJsonInfo_cases root hr with ⟨user, token, hu, ht, hread⟩ | ⟨hmissing, hstale⟩
        · rw [safeMyfiles_given hr hcmd hu ht, if_neg hcount] at h
          by_cases htoken : s.tokens.lookup user.valuestring = some token.valuestring
          · rw [actFilelist_accepted (by rw [hread]; exact htoken),
              actFilelist_accepted (by rw [hread]; exact htoken), hread, hread]
            simp only [Served.mk.injEq, true_and, and_true]
            exact actFilelist_page (h htoken) { m with cmd := cmd } { m' with cmd := cmd }
          · rw [actFilelist_refused (by rw [hread]; exact htoken),
              actFilelist_refused (by rw [hread]; exact htoken)]
        · have hnone := noStaleToken_lookup ((safeMyfiles_missing hr hcmd hmissing).mp h).2
          have hrefused : ∀ m : Memory, s.tokens.lookup (getFileslistJsonInfo root m).2.user ≠
              some (getFileslistJsonInfo root m).2.token := by
            intro m
            rw [(hstale m).2, hnone]
            simp
          rw [actFilelist_refused (hrefused _), actFilelist_refused (hrefused _)]

/-- It tells the count or the list of the user it names with the right token. -/
theorem serveMyfiles_names (h : r.SafeMyfiles s) (m : Memory) (u : String)
    (hu : (serveMyfiles R s m r).2.store.rowsOf u ≠ s.rowsOf u ∨
      (serveMyfiles R s m r).2.disclosed = some u) : r.Names s u := by
  cases hr : r.body with
  | noData => simp [serveMyfiles, hr] at hu
  | unread => simp [serveMyfiles, hr] at hu
  | text root =>
    cases hcmd : queryParseKeyValue r.query "cmd" with
    | none => simp [CgiRequest.SafeMyfiles, hr, hcmd] at h
    | some cmd =>
      simp only [serveMyfiles, hr, readCmd_some hcmd] at hu
      by_cases hcount : cmd = "count"
      · simp only [hcount, if_true] at hu
        rcases getCountJsonInfo_cases root hr with ⟨user, token, huser, ht, hread⟩ | ⟨hmissing, -⟩
        · rw [safeMyfiles_given hr hcmd huser ht, if_pos hcount] at h
          obtain ⟨num, code, he⟩ := actCount_eq (R := R) (s := s)
            (m := (getCountJsonInfo root { m with cmd := "count" }).2)
          rw [he, hread] at hu
          have he' : user.valuestring = u := by simpa using hu
          exact ⟨user, token, huser, he', ht, he' ▸ h⟩
        · exact absurd hcount ((safeMyfiles_missing hr hcmd hmissing).mp h).1
      · simp only [if_neg hcount] at hu
        by_cases htoken : s.tokens.lookup (getFileslistJsonInfo root { m with cmd := cmd }).2.user =
            some (getFileslistJsonInfo root { m with cmd := cmd }).2.token
        · rw [actFilelist_accepted htoken] at hu
          have he : (getFileslistJsonInfo root { m with cmd := cmd }).2.user = u := by simpa using hu
          rcases getFileslistJsonInfo_cases root hr with ⟨user, token, huser, ht, hread⟩ |
            ⟨hmissing, hstale⟩
          · rw [hread] at he htoken
            exact ⟨user, token, huser, he, ht, he ▸ htoken⟩
          · have hnone := noStaleToken_lookup ((safeMyfiles_missing hr hcmd hmissing).mp h).2
            rw [(hstale _).2, hnone] at htoken
            exact absurd htoken (by simp)
        · rw [actFilelist_refused htoken] at hu
          simp at hu

/-- A list whose page is stale is answered differently from two fillings. -/
theorem exists_page_of_not_given {cmd : String} {user : CJson}
    (h : ¬ r.PageGiven s cmd user.valuestring) :
    ∃ start count start' count', ∀ m m' : Memory, m.start = start → m.count = count →
      m'.start = start' → m'.count = count' →
      filelistResponse (run (servers R) (getUserFilelist cmd user.valuestring
          (((r.field "start").map CJson.valueint).getD m.start)
          (match r.field "start", r.field "count" with
            | some _, some count => count.valueint
            | _, _ => m.count)) s).1 ≠
        filelistResponse (run (servers R) (getUserFilelist cmd user.valuestring
          (((r.field "start").map CJson.valueint).getD m'.start)
          (match r.field "start", r.field "count" with
            | some _, some count => count.valueint
            | _, _ => m'.count)) s).1 := by
  unfold CgiRequest.PageGiven at h
  cases hstart : r.field "start" with
  | none =>
    simp only [hstart] at h
    push Not at h
    obtain ⟨hlisted, hfiles⟩ := h
    refine ⟨0, 1, 0, -1, fun m m' h₁ h₂ h₃ h₄ => ?_⟩
    simp only [Option.map_none, Option.getD_none, h₁, h₂, h₃, h₄]
    have hlen : 0 < (s.joinedFiles user.valuestring).length := List.length_pos_iff.mpr hfiles
    exact getUserFilelist_inside hlisted le_rfl (by omega)
  | some start =>
    cases hcount : r.field "count" with
    | none =>
      simp only [hstart, hcount] at h
      push Not at h
      obtain ⟨hlisted, h0, hlen⟩ := h
      refine ⟨0, 1, 0, -1, fun m m' _ h₂ _ h₄ => ?_⟩
      simp only [Option.map_some, Option.getD_some, h₂, h₄]
      exact getUserFilelist_inside hlisted h0 hlen
    | some count =>
      simp only [hstart, hcount] at h
      exact absurd trivial h

/-- A request that is not safe is answered differently after some earlier requests, or tells
something that its user and token do not give a right to. -/
theorem safeMyfiles_of_isolated (h : CgiProgram.myfiles.Isolated R m s r)
    (hc : CgiProgram.myfiles.Confined R m s r) : r.SafeMyfiles s := by
  by_contra hsafe
  have hsame : ∀ user token start count user' token' start' count' {query cmd query' cmd' : String},
      afterKey "cmd".toList query.toList ≠ some [] → queryParseKeyValue query "cmd" = some cmd →
      afterKey "cmd".toList query'.toList ≠ some [] → queryParseKeyValue query' "cmd" = some cmd' →
      ∃ m₁ m₂ : Memory, (m₁.cmd = cmd ∧ m₁.user = user ∧ m₁.token = token ∧ m₁.start = start ∧
        m₁.count = count) ∧ (m₂.cmd = cmd' ∧ m₂.user = user' ∧ m₂.token = token' ∧
        m₂.start = start' ∧ m₂.count = count') ∧
          (serveMyfiles R s m₁ r).2.response = (serveMyfiles R s m₂ r).2.response := by
    intro user token start count user' token' start' count' query cmd query' cmd' hq hc hq' hc'
    obtain ⟨earlier₁, hs₁, hcmd₁, huser₁, htoken₁, hpage₁⟩ :=
      exists_earlier R m s user token start count (P := .myfiles) (by decide) hq hc
    obtain ⟨earlier₂, hs₂, hcmd₂, huser₂, htoken₂, hpage₂⟩ :=
      exists_earlier R m s user' token' start' count' (P := .myfiles) (by decide) hq' hc'
    exact ⟨_, _, ⟨hcmd₁, huser₁, htoken₁, hpage₁ rfl⟩, ⟨hcmd₂, huser₂, htoken₂, hpage₂ rfl⟩,
      (h s _ s _ hs₁ hs₂).1⟩
  have hnames : ∀ u, (serveMyfiles R s m r).2.disclosed = some u → r.Names s u :=
    fun u hu => hc s [] rfl u (.inr hu)
  have hnoop : afterKey "cmd".toList "cmd=noop".toList ≠ some [] := by decide
  have hcount : afterKey "cmd".toList "cmd=count".toList ≠ some [] := by decide
  have parse_count : queryParseKeyValue "cmd=count" "cmd" = some "count" := by decide
  cases hr : r.body with
  | noData => simp [CgiRequest.SafeMyfiles, hr] at hsafe
  | unread => simp [CgiRequest.SafeMyfiles, hr] at hsafe
  | text root =>
    cases hcmd : queryParseKeyValue r.query "cmd" with
    | none =>
      -- the stale command decides between a count and a list
      obtain ⟨m₁, m₂, ⟨hcmd₁, -⟩, ⟨hcmd₂, -⟩, he⟩ :=
        hsame "" "" 0 0 "" "" 0 0 hcount parse_count hnoop parse_noop
      simp only [serveMyfiles, hr, readCmd_none hcmd, hcmd₁, hcmd₂, if_true,
        show "noop" ≠ "count" by decide, if_false] at he
      obtain ⟨num, code, hcounted⟩ := actCount_eq (R := R) (s := s) (m := (getCountJsonInfo root m₁).2)
      rw [hcounted] at he
      by_cases htoken : s.tokens.lookup (getFileslistJsonInfo root m₂).2.user =
          some (getFileslistJsonInfo root m₂).2.token
      · rw [actFilelist_accepted htoken] at he
        exact absurd he.symm (filelistResponse_ne_count _ _ _)
      · rw [actFilelist_refused htoken] at he
        exact absurd he (by simp)
    | some cmd =>
      by_cases hkind : cmd = "count"
      · -- the count is told with a wrong token, or without one
        simp only [serveMyfiles, hr, readCmd_some hcmd, hkind, if_true] at hnames
        obtain ⟨num, code, hcounted⟩ := actCount_eq (R := R) (s := s)
          (m := (getCountJsonInfo root { m with cmd := "count" }).2)
        rw [hcounted] at hnames
        obtain ⟨user, token, hu, he, ht, hlookup⟩ := hnames _ rfl
        rcases getCountJsonInfo_cases root hr with ⟨user', token', hu', ht', hread⟩ | ⟨hmissing, -⟩
        · refine hsafe ((safeMyfiles_given hr hcmd hu ht).mpr ?_)
          rw [if_pos hkind, he, hlookup]
        · rcases hmissing with hnone | hnone
          · exact absurd (hu.symm.trans hnone) (by simp)
          · exact absurd (ht.symm.trans hnone) (by simp)
      · rcases getFileslistJsonInfo_cases root hr with ⟨user, token, hu, ht, hread⟩ |
          ⟨hmissing, hstale⟩
        · -- the token is right and the page is stale
          rw [safeMyfiles_given hr hcmd hu ht, if_neg hkind] at hsafe
          push Not at hsafe
          obtain ⟨htoken, hpage⟩ := hsafe
          obtain ⟨start, count, start', count', hne⟩ := exists_page_of_not_given (R := R) hpage
          obtain ⟨m₁, m₂, ⟨-, -, -, h₁, h₂⟩, ⟨-, -, -, h₃, h₄⟩, he⟩ :=
            hsame "" "" start count "" "" start' count' hnoop parse_noop hnoop parse_noop
          simp only [serveMyfiles, hr, readCmd_some hcmd, if_neg hkind] at he
          rw [actFilelist_accepted (by rw [hread]; exact htoken),
            actFilelist_accepted (by rw [hread]; exact htoken), hread, hread] at he
          exact hne { m₁ with cmd := cmd } { m₂ with cmd := cmd } h₁ h₂ h₃ h₄ he
        · -- the token is stale
          rw [safeMyfiles_missing hr hcmd hmissing] at hsafe
          obtain ⟨user, token, htoken⟩ := exists_staleToken (fun hstale => hsafe ⟨hkind, hstale⟩)
          obtain ⟨m₁, m₂, ⟨-, huser₁, htoken₁, -⟩, ⟨-, huser₂, htoken₂, -⟩, he⟩ :=
            hsame user token 0 0 user (token ++ "x") 0 0 hnoop parse_noop hnoop parse_noop
          simp only [serveMyfiles, hr, readCmd_some hcmd, if_neg hkind] at he
          have haccepted : s.tokens.lookup (getFileslistJsonInfo root { m₁ with cmd := cmd }).2.user =
              some (getFileslistJsonInfo root { m₁ with cmd := cmd }).2.token := by
            rw [(hstale _).1, (hstale _).2, huser₁, htoken₁, htoken]
          have hrefused : s.tokens.lookup (getFileslistJsonInfo root { m₂ with cmd := cmd }).2.user ≠
              some (getFileslistJsonInfo root { m₂ with cmd := cmd }).2.token := by
            rw [(hstale _).1, (hstale _).2, huser₂, htoken₂, htoken]
            simp [String.ext_iff]
          rw [actFilelist_accepted haccepted, actFilelist_refused hrefused] at he
          exact filelistResponse_ne _ he

end Myfiles

section Md5

variable {R : RedisServer} {s : Store} {r : CgiRequest}

/-- md5_cgi.c keeps nothing from request to request. -/
theorem serveMd5_const (m m' : Memory) : (serveMd5 R s m r).2 = (serveMd5 R s m' r).2 := by
  unfold serveMd5
  cases r.body with
  | noData => rfl
  | unread => rfl
  | text root =>
    simp only
    split_ifs <;> rfl

theorem serveMd5_names (m : Memory) (u : String)
    (hu : (serveMd5 R s m r).2.store.rowsOf u ≠ s.rowsOf u ∨
      (serveMd5 R s m r).2.disclosed = some u) : r.Names s u := by
  unfold serveMd5 at hu
  cases hr : r.body with
  | noData => simp [hr] at hu
  | unread => simp [hr] at hu
  | text root =>
    simp only [hr] at hu
    by_cases hret : (getMd5Info root .zero).1 ≠ 0
    · simp [hret] at hu
    · rw [if_neg hret] at hu
      have hconfined : (actMd5 R s r.now (getMd5Info root .zero).2).disclosed = none ∧
          (_ → u = _ ∧ _) := actMd5_confined
      simp only [hconfined.1] at hu
      obtain ⟨he, htoken⟩ := hconfined.2 (hu.resolve_right (by simp))
      obtain ⟨user, token, huser, ht, hu', ht'⟩ := (getMd5Info_cases root hr).resolve_left hret
      rw [hu', ht'] at htoken
      rw [hu'] at he
      exact ⟨user, token, huser, he.symm, ht, he ▸ htoken⟩

end Md5

/-- A user with a token and one file. -/
def oneFile : Store :=
  { Store.empty with
    userFileList := [newUserFile "milo" "m1" "t" "a.txt"]
    userFileCount := (∅ : Finmap (fun _ : String => ℤ)).insert "milo" 1
    tokens := (∅ : Finmap (fun _ : String => String)).insert "milo" "tok" }

/-- The number of the user's files asked for with a wrong token. -/
def countRequest : CgiRequest where
  query := "cmd=count"
  body := .text (some [⟨"user", "milo", 0⟩, ⟨"token", "wrong", 0⟩])
  now := ""
  query_complete := by decide

end CServer.CloudDisk
