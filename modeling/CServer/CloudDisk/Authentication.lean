import CServer.CloudDisk.Accounts

/-!
# Who a token speaks for

Runs of registrations, logins and expiries, with statements that may fail. A
login's password check is right exactly when it is safe in the state it finds,
and as long as every login is, a token is accepted only for a registered user
whose password the login that stored it had presented.
-/
namespace CServer.CloudDisk

open Program Runs

/-- A request of the three kinds, with the statements of it that fail. -/
inductive AccountRequest where
  | register (userName nickName pwd tel email timeStr : String) (fails : ℕ → Bool)
  | login (username pwd : String) (randNum : List ℕ) (fails : ℕ → Bool)
  | expire (username : String)

/-- The stores, the names that were registered with success, and for each stored token
the password that its login presented. -/
structure Audit where
  accounts : Accounts
  registered : List String
  presented : Finmap (fun _ : String => String)

def Audit.start : Audit := ⟨.empty, [], ∅⟩

namespace Accounts

variable (T : TextRules) (s : Accounts)

def HasUser (user : String) : Prop := ∃ r ∈ s.userInfo, T.same r.userName user

/-- `user_info` has a row for the user whose password is `pwd`. -/
def HasPassword (user pwd : String) : Prop :=
  ∃ r ∈ s.userInfo, T.same r.userName user ∧ r.password = pwd

/-- The unique key on `user_name`. -/
def UniqueNames : Prop :=
  ∀ a ∈ s.userInfo, ∀ b ∈ s.userInfo, T.same a.userName b.userName → a = b

def checkAccepts (fails : ℕ → Bool) (user pwd : String) : Prop :=
  (runFaulty (accountServers T) fails 0 (checkUserPwd user pwd) s).1 = .ok ()

def tokenAccepts (fails : ℕ → Bool) (user token : String) : Prop :=
  (runFaulty (accountServers T) fails 0
    (verifyToken .connectRedis .getString user token) s).1 = .ok ()

/-- With a password query that is answered, the empty password needs a row of the user.
A query that fails leaves the empty text, and without a connection nobody is accepted. -/
def CheckSafe (fails : ℕ → Bool) (user pwd : String) : Prop :=
  if fails 0 then ¬ s.HasPassword T user pwd
  else if fails 2 then pwd = "" ↔ s.HasPassword T user pwd
  else pwd = "" → s.HasUser T user

end Accounts

/-- The state after a request, and what the record keeps of it. -/
def accountStep (T : TextRules) (encode : String → Option String) (a : Audit) :
    AccountRequest → Audit
  | .register userName nickName pwd tel email timeStr fails =>
      let (r, t, _) := runFaulty (accountServers T) fails 0
        (userRegister userName nickName pwd tel email timeStr) a.accounts
      { a with
        accounts := t
        registered := if r = .ok () then userName :: a.registered else a.registered }
  | .login username pwd randNum fails =>
      let (r, t, _) := runFaulty (accountServers T) fails 0
        (login encode username pwd randNum) a.accounts
      { a with
        accounts := t
        presented := match r with
          | .ok _ => a.presented.insert username pwd
          | .error _ => a.presented }
  | .expire username =>
      { a with
        accounts := { a.accounts with tokens := a.accounts.tokens.erase username }
        presented := a.presented.erase username }

/-- A token is accepted only for a user with a row, put there by a registration, and
the login that stored the token presented the row's password. -/
def TokensSound (T : TextRules) (a : Audit) : Prop :=
  ∀ fails user token, a.accounts.tokenAccepts T fails user token →
    ∃ r ∈ a.accounts.userInfo, T.same r.userName user ∧ a.presented.lookup user = some r.password ∧
      ∃ name ∈ a.registered, T.keep 32 name = some r.userName

/-- The password check of a login accepts exactly the password of the user's row. -/
def LoginChecked (T : TextRules) (a : Audit) : AccountRequest → Prop
  | .login username pwd _ fails =>
      a.accounts.checkAccepts T fails username pwd ↔ a.accounts.HasPassword T username pwd
  | _ => True

def LoginSafe (T : TextRules) (a : Audit) : AccountRequest → Prop
  | .login username pwd _ fails => a.accounts.CheckSafe T fails username pwd
  | _ => True

section Checks

variable {T : TextRules} {s : Accounts} {fails : ℕ → Bool} {user pwd token : String}

theorem runFaulty_issue_bind {β γ : Type} {n : ℕ} (c : AccountStmt β)
    (f : β → Program AccountStmt ℤ γ) :
    runFaulty (accountServers T) fails n (issue c >>= f) s =
      if fails n then runFaulty (accountServers T) fails (n + 1) (f c.failed) s
      else runFaulty (accountServers T) fails (n + 1) (f (c.exec T s).1) (c.exec T s).2 := rfl

/-- What is left in `tmp` after the password query. -/
def queriedPassword (T : TextRules) (s : Accounts) (fails : ℕ → Bool) (user : String) : String :=
  if fails 2 then ""
  else match s.usersNamed T user with
    | [] => ""
    | r :: _ => r.password

attribute [local simp] AccountStmt.failed AccountStmt.exec

/-- The password check changes nothing, and accepts the text left in `tmp`. -/
theorem runFaulty_checkUserPwd :
    runFaulty (accountServers T) fails 0 (checkUserPwd user pwd) s =
      if fails 0 then (.error (-1), s, 1)
      else if queriedPassword T s fails user = pwd then (.ok (), s, 3) else (.error (-1), s, 3) := by
  unfold queriedPassword
  rw [checkUserPwd, runFaulty_issue_bind]
  by_cases h0 : fails 0 = true
  · simp [h0]
  · by_cases h2 : fails 2 = true
    · by_cases hpwd : "" = pwd <;>
        simp [h0, h2, hpwd, runFaulty_issue_bind, processResultOne]
    · cases hrows : s.usersNamed T user with
      | nil =>
        by_cases hpwd : "" = pwd <;>
          simp [h0, h2, hpwd, hrows, runFaulty_issue_bind, processResultOne]
      | cons r rows =>
        by_cases hpwd : r.password = pwd <;>
          simp [h0, h2, hpwd, hrows, runFaulty_issue_bind, processResultOne]

theorem checkAccepts_iff :
    s.checkAccepts T fails user pwd ↔ fails 0 = false ∧ queriedPassword T s fails user = pwd := by
  rw [Accounts.checkAccepts, runFaulty_checkUserPwd]
  split_ifs <;> simp_all

theorem tokenAccepts_iff : s.tokenAccepts T fails user token ↔
    fails 0 = false ∧ fails 1 = false ∧ s.tokens.lookup user = some token := by
  rw [Accounts.tokenAccepts, verifyToken, runFaulty_issue_bind]
  by_cases h0 : fails 0 = true
  · simp [h0]
  · by_cases h1 : fails 1 = true
    · simp [h0, h1, runFaulty_issue_bind]
    · cases htoken : s.tokens.lookup user with
      | none => simp [h0, h1, htoken, runFaulty_issue_bind]
      | some tmp =>
        by_cases he : token = tmp
        · simp [h0, h1, htoken, he, runFaulty_issue_bind]
        · simp [h0, h1, htoken, he, Ne.symm he, runFaulty_issue_bind]

/-- A login changes nothing, or its password check accepts and its token is stored. -/
theorem login_cases {encode : String → Option String} {randNum : List ℕ}
    {r : Except ℤ String} {t : Accounts} {i : ℕ}
    (h : runFaulty (accountServers T) fails 0 (login encode user pwd randNum) s = (r, t, i)) :
    (∃ e, r = .error e ∧ t = s) ∨
      (∃ token, r = .ok token ∧ t = { s with tokens := s.tokens.insert user token } ∧
        s.checkAccepts T fails user pwd) := by
  rw [login, runFaulty_bind, runFaulty_checkUserPwd] at h
  by_cases h0 : fails 0 = true
  · rw [if_pos h0] at h
    cases h
    exact .inl ⟨_, rfl, rfl⟩
  by_cases hpwd : queriedPassword T s fails user = pwd
  · rw [if_neg h0, if_pos hpwd] at h
    have haccepts : s.checkAccepts T fails user pwd :=
      checkAccepts_iff.mpr ⟨by simpa using h0, hpwd⟩
    simp only [setToken, runFaulty_issue_bind] at h
    cases htoken : encode (user ++ String.join (randNum.map toString)) with
    | none =>
      left
      by_cases h3 : fails 3 = true <;>
        simp [h3, htoken] at h <;> simp [← h.1, ← h.2.1]
    | some token =>
      by_cases h3 : fails 3 = true
      · simp [h3] at h
        exact .inl ⟨_, h.1.symm, h.2.1.symm⟩
      · by_cases h4 : fails 4 = true
        · simp [h3, h4, htoken, runFaulty_issue_bind] at h
          exact .inl ⟨_, h.1.symm, h.2.1.symm⟩
        · simp [h3, h4, htoken, runFaulty_issue_bind] at h
          exact .inr ⟨token, h.1.symm, h.2.1.symm, haccepts⟩
  · rw [if_neg h0, if_neg hpwd] at h
    cases h
    exact .inl ⟨_, rfl, rfl⟩

theorem insertUser_cases (row : UserInfo) :
    s.insertUser T row = (false, s) ∨
      ∃ kept, s.insertUser T row = (true, { s with userInfo := s.userInfo ++ [kept] }) ∧
        T.keep 32 row.userName = some kept.userName ∧ ¬ s.HasUser T kept.userName := by
  unfold Accounts.insertUser
  cases hkept : Accounts.keptRow T row with
  | none => exact .inl rfl
  | some kept =>
    simp only
    split_ifs with hany
    · exact .inl rfl
    · refine .inr ⟨kept, rfl, ?_, ?_⟩
      · simp only [Accounts.keptRow, Option.bind_eq_bind, Option.bind_eq_some_iff] at hkept
        obtain ⟨userName, hname, _, _, _, _, _, _, _, _, he⟩ := hkept
        cases he
        exact hname
      · rintro ⟨r, hr, hsame⟩
        exact hany (List.any_eq_true.mpr ⟨r, hr, by simp [hsame]⟩)

/-- A registration changes nothing, or stores its row under a name that no row has. -/
theorem userRegister_cases {nickName tel email timeStr : String}
    {r : Except ℤ Unit} {t : Accounts} {i : ℕ}
    (h : runFaulty (accountServers T) fails 0 (userRegister user nickName pwd tel email timeStr) s =
      (r, t, i)) :
    (∃ e, r = .error e ∧ t = s) ∨
      (∃ row, r = .ok () ∧ t = { s with userInfo := s.userInfo ++ [row] } ∧
        T.keep 32 user = some row.userName ∧ ¬ s.HasUser T row.userName) := by
  let row : UserInfo :=
    { userName := user, nickName := nickName, password := pwd, phone := tel, email := email
      createTime := timeStr }
  have hinsert : runFaulty (accountServers T) fails 3 (do
      if (← issue (.insertUser row)) then return () else .exit (-1)) s = (r, t, i) →
        (∃ e, r = .error e ∧ t = s) ∨
          (∃ row, r = .ok () ∧ t = { s with userInfo := s.userInfo ++ [row] } ∧
            T.keep 32 user = some row.userName ∧ ¬ s.HasUser T row.userName) := by
    intro h
    rw [runFaulty_issue_bind] at h
    by_cases h3 : fails 3 = true
    · simp [h3] at h
      exact .inl ⟨_, h.1.symm, h.2.1.symm⟩
    · rcases insertUser_cases (T := T) (s := s) row with hrefused | ⟨kept, hkept, hname, hnew⟩
      · simp [h3, hrefused] at h
        exact .inl ⟨_, h.1.symm, h.2.1.symm⟩
      · simp [h3, hkept] at h
        exact .inr ⟨kept, h.1.symm, h.2.1.symm, hname, hnew⟩
  rw [userRegister, runFaulty_issue_bind] at h
  by_cases h0 : fails 0 = true
  · simp [h0] at h
    exact .inl ⟨_, h.1.symm, h.2.1.symm⟩
  -- a failed look for the name goes on as if it were free, and the unique key decides
  by_cases h2 : fails 2 = true
  · apply hinsert
    simpa [h0, h2, runFaulty_issue_bind, processResultOne] using h
  · cases hrows : s.usersNamed T user with
    | nil =>
      apply hinsert
      simpa [h0, h2, hrows, runFaulty_issue_bind, processResultOne] using h
    | cons r rows =>
      simp [h0, h2, hrows, runFaulty_issue_bind, processResultOne] at h
      exact .inl ⟨_, h.1.symm, h.2.1.symm⟩

/-- The first row of a user is the only one. -/
theorem hasPassword_of_rows {r : UserInfo} {rows : List UserInfo} (hunique : s.UniqueNames T)
    (hrows : s.usersNamed T user = r :: rows) : s.HasPassword T user pwd ↔ r.password = pwd := by
  have hr : r ∈ s.usersNamed T user := by rw [hrows]; exact List.mem_cons_self
  obtain ⟨hmem, hsame⟩ := List.mem_filter.mp hr
  constructor
  · rintro ⟨r', hmem', hsame', hpwd⟩
    have he : r' = r := hunique r' hmem' r hmem
      (T.same_equivalence.trans hsame' (T.same_equivalence.symm hsame))
    rw [← he, hpwd]
  · intro hpwd
    exact ⟨r, hmem, hsame, hpwd⟩

/-- The check is right exactly when it is safe. -/
theorem checkAccepts_right_iff (hunique : s.UniqueNames T) :
    (s.checkAccepts T fails user pwd ↔ s.HasPassword T user pwd) ↔
      s.CheckSafe T fails user pwd := by
  rw [checkAccepts_iff, Accounts.CheckSafe, queriedPassword]
  by_cases h0 : fails 0 = true
  · simp [h0]
  by_cases h2 : fails 2 = true
  · simp [h0, h2, eq_comm]
  cases hrows : s.usersNamed T user with
  | nil =>
    have hnone : ¬ s.HasUser T user := by
      rintro ⟨r, hr, hsame⟩
      have hmem : r ∈ s.usersNamed T user := List.mem_filter.mpr ⟨hr, hsame⟩
      rw [hrows] at hmem
      exact List.not_mem_nil hmem
    have hpassword : ¬ s.HasPassword T user pwd := fun ⟨r, hr, hsame, _⟩ => hnone ⟨r, hr, hsame⟩
    simp [h0, h2, hnone, hpassword, eq_comm]
  | cons r rows =>
    have hr : r ∈ s.usersNamed T user := by rw [hrows]; exact List.mem_cons_self
    have huser : s.HasUser T user := ⟨r, List.mem_filter.mp hr⟩
    simp [h0, h2, huser, hasPassword_of_rows hunique hrows]

end Checks

/-- What every safe run keeps: names are unique, rows come from registrations, and a
stored token belongs to a login with the password of its user's row. -/
structure AuditInv (T : TextRules) (a : Audit) : Prop where
  unique : a.accounts.UniqueNames T
  registered : ∀ r ∈ a.accounts.userInfo, ∃ name ∈ a.registered, T.keep 32 name = some r.userName
  presented : ∀ user token, a.accounts.tokens.lookup user = some token →
    ∃ r ∈ a.accounts.userInfo, T.same r.userName user ∧ a.presented.lookup user = some r.password

namespace AuditInv

variable {T : TextRules} {encode : String → Option String} {a : Audit}

theorem start : AuditInv T .start where
  unique a h := absurd h List.not_mem_nil
  registered r h := absurd h List.not_mem_nil
  presented user token h := by simp [Audit.start, Accounts.empty] at h

theorem tokensSound (h : AuditInv T a) : TokensSound T a := by
  intro fails user token haccepts
  obtain ⟨-, -, htoken⟩ := tokenAccepts_iff.mp haccepts
  obtain ⟨r, hr, hsame, hpresented⟩ := h.presented user token htoken
  exact ⟨r, hr, hsame, hpresented, h.registered r hr⟩

theorem loginChecked_iff (h : AuditInv T a) (request : AccountRequest) :
    LoginChecked T a request ↔ LoginSafe T a request := by
  cases request with
  | register => exact Iff.rfl
  | login => exact checkAccepts_right_iff h.unique
  | expire => exact Iff.rfl

theorem step (h : AuditInv T a) {request : AccountRequest} (hsafe : LoginSafe T a request) :
    AuditInv T (accountStep T encode a request) := by
  cases request with
  | register userName nickName pwd tel email timeStr fails =>
    rcases hrun : runFaulty (accountServers T) fails 0
      (userRegister userName nickName pwd tel email timeStr) a.accounts with ⟨r, t, i⟩
    simp only [accountStep, hrun]
    rcases userRegister_cases hrun with ⟨e, rfl, rfl⟩ | ⟨row, rfl, rfl, hname, hnew⟩
    · exact ⟨h.unique, by simpa using h.registered, h.presented⟩
    · refine ⟨?_, ?_, ?_⟩
      · intro b hb c hc hbc
        rcases List.mem_append.mp hb with hb | hb <;> rcases List.mem_append.mp hc with hc | hc
        · exact h.unique b hb c hc hbc
        · rw [List.mem_singleton.mp hc] at hbc
          exact absurd ⟨b, hb, hbc⟩ hnew
        · rw [List.mem_singleton.mp hb] at hbc
          exact absurd ⟨c, hc, T.same_equivalence.symm hbc⟩ hnew
        · rw [List.mem_singleton.mp hb, List.mem_singleton.mp hc]
      · intro r hr
        rcases List.mem_append.mp hr with hr | hr
        · obtain ⟨name, hmem, hkeep⟩ := h.registered r hr
          exact ⟨name, List.mem_cons_of_mem _ hmem, hkeep⟩
        · rw [List.mem_singleton.mp hr]
          exact ⟨userName, List.mem_cons_self, hname⟩
      · intro user token htoken
        obtain ⟨r, hr, hrest⟩ := h.presented user token htoken
        exact ⟨r, List.mem_append_left _ hr, hrest⟩
  | login username pwd randNum fails =>
    rcases hrun : runFaulty (accountServers T) fails 0 (login encode username pwd randNum)
      a.accounts with ⟨r, t, i⟩
    simp only [accountStep, hrun]
    rcases login_cases hrun with ⟨e, rfl, rfl⟩ | ⟨token, rfl, rfl, haccepts⟩
    · exact h
    · obtain ⟨row, hrow, hsame, hpwd⟩ := ((checkAccepts_right_iff h.unique).mpr hsafe).mp haccepts
      refine ⟨h.unique, h.registered, fun user token' htoken => ?_⟩
      by_cases hu : user = username
      · subst hu
        exact ⟨row, hrow, hsame, by simp [hpwd]⟩
      · simp only [Finmap.lookup_insert_of_ne _ hu] at htoken ⊢
        exact h.presented user token' htoken
  | expire username =>
    refine ⟨h.unique, h.registered, fun user token htoken => ?_⟩
    have hu : user ≠ username := by
      rintro rfl
      simp [accountStep] at htoken
    simp only [accountStep, Finmap.lookup_erase_ne hu] at htoken ⊢
    exact h.presented user token htoken

end AuditInv

/-- In a run from empty stores every login's password check is right and every accepted
token is sound, exactly when every login is safe in the state it finds. -/
theorem authentication_iff (T : TextRules) (encode : String → Option String)
    (requests : List AccountRequest) :
    Along (accountStep T encode) (LoginChecked T) .start requests ∧
        Throughout (accountStep T encode) (TokensSound T) .start requests ↔
      Along (accountStep T encode) (LoginSafe T) .start requests := by
  have hkeep : ∀ a request, AuditInv T a → LoginSafe T a request →
      AuditInv T (accountStep T encode a request) := fun a request h hsafe => h.step hsafe
  have hkeep' : ∀ a request, AuditInv T a → LoginChecked T a request →
      AuditInv T (accountStep T encode a request) :=
    fun a request h hchecked => h.step ((h.loginChecked_iff request).mp hchecked)
  constructor
  · rintro ⟨hchecked, -⟩
    have hinv := invariant_rule hkeep' .start hchecked
    exact hinv.2.mono fun a request h => (h.1.loginChecked_iff request).mp h.2
  · intro hsafe
    have hinv := invariant_rule hkeep .start hsafe
    exact ⟨hinv.2.mono fun a request h => (h.1.loginChecked_iff request).mpr h.2,
      hinv.1.mono fun a h => h.tokensSound⟩

/-- The token of somebody who never registered, after a login with two empty texts. -/
theorem emptyPassword_breaks :
    ¬ ∀ T encode requests, Throughout (accountStep T encode) (TokensSound T) .start requests := by
  intro h
  have hrun := h .exact some [.login "guest" "" [1, 2, 3, 4] (fun _ => false)]
  obtain ⟨r, hr, -⟩ := hrun.2 (fun _ => false) "guest" "guest1234"
    (tokenAccepts_iff.mpr ⟨rfl, rfl, by decide⟩)
  have hnone : (accountStep .exact some .start
      (.login "guest" "" [1, 2, 3, 4] (fun _ => false))).accounts.userInfo = [] := by decide
  rw [hnone] at hr
  exact List.not_mem_nil hr

end CServer.CloudDisk
