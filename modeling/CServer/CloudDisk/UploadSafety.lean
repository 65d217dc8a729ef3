import CServer.CloudDisk.UploadRoundTrip

/-!
# Bodies of any kind

What the parser does with a body that no client of the form sent. It leaves no buffer,
uses no null result and refuses what is not of the form exactly for the bodies
of `Handled`: only the first two line ends and the closing boundary are checked, and all
else is taken as it comes.
-/
namespace CServer.CloudDisk

open Search

/-- The text of a number. -/
def NumberText (size : Bytes) : Prop :=
  ∃ digits : Bytes, digits ≠ [] ∧ (∀ c ∈ digits, isdigit c = true) ∧
    (size = digits ∨ size = 45 :: digits)

/-- A text that can stand between two quotes of the header. -/
def QuotedText (value : Bytes) : Prop := ∀ c ∈ value, c ≠ quote ∧ c ≠ 13 ∧ c ≠ 10 ∧ c ≠ 0

/-- The form that the comments of the source document. -/
def Documented (body : Bytes) : Prop :=
  ∃ boundary user filename md5 size content tail,
    boundary ≠ [] ∧ (∀ c ∈ boundary, c ≠ 13 ∧ c ≠ 10 ∧ c ≠ 0) ∧
    QuotedText user ∧ QuotedText filename ∧ QuotedText md5 ∧ NumberText size ∧
    ¬ boundary <:+: content ∧
    body = multipart boundary (headerLine user filename md5 size) content tail

/-- The run leaves no buffer and uses no null result, and a body of another form is
refused, and no file opened. -/
def Safe (host : Host) (body : Bytes) : Prop :=
  ∃ out, recvSaveFile host body = .ok out ∧
    (¬ Documented body → out.ret = -1 ∧ out.file = none)

/-- The bodies the checks of the source are enough for. -/
inductive Handled (host : Host) (body : Bytes) : Prop where
  | unread : Unread host body → Handled host body
  | noBoundary : Stopped 0 crlf body → Handled host body
  | noHeader (boundary second : Bytes) : Line body boundary second →
      boundary.length < tempBufMaxLen → Stopped 0 crlf second → Handled host body
  | noEnd (boundary : Bytes) (header : UploadHeader) (rest : Bytes) :
      Layout body boundary header rest → Endless boundary (rest.drop 2) (contentLen rest) →
      Handled host body
  | notOpened (boundary : Bytes) (header : UploadHeader) (rest : Bytes) :
      Layout body boundary header rest → host.opens header.filename = false → Handled host body
  | documented (boundary : Bytes) (header : UploadHeader) (rest : Bytes) :
      Layout body boundary header rest → Documented body → Handled host body

theorem Upload.documented (u : Upload) : Documented u.body := by
  refine ⟨u.boundary, u.user, u.filename, u.md5, u.sizeText, u.content, bytes "--\r\n",
    u.boundary_nonempty, u.boundary_plain, u.user_text.plain, u.filename_text.plain,
    u.md5_text.plain, ?_, u.boundary_free, rfl⟩
  obtain ⟨n, -, hn⟩ := u.sizeText_cases
  exact ⟨bytes n.repr, bytes_repr_ne_nil n, fun c hc => isdigit_of_mem_repr hc, hn⟩

section safety

variable {host : Host} {body : Bytes}

/-- The boundary is found in the content or it is not. -/
theorem ends_or_endless (boundary rest : Bytes) :
    Endless boundary (rest.drop 2) (contentLen rest) ∨
      ∃ content after, Ends boundary (rest.drop 2) (contentLen rest) content after := by
  have hlen := contentLen_le rest
  by_cases hend : Endless boundary (rest.drop 2) (contentLen rest)
  · exact .inl hend
  · right
    rw [← memstr_eq_none_iff hlen, memstr_eq hlen] at hend
    rw [Except.ok.injEq, ← ne_eq, Option.ne_none_iff_exists'] at hend
    obtain ⟨⟨content, after⟩, hsome⟩ := hend
    refine ⟨content, after, (memstr_eq_some_iff hlen).mp ?_⟩
    rw [memstr_eq hlen, hsome]

/-- With a layout the run comes back, whatever it returns. -/
theorem Layout.receives {boundary rest : Bytes} {header : UploadHeader}
    (hu : ¬ Unread host body) (hl : Layout body boundary header rest) :
    ∃ out, Receives host body out ∧
      (Endless boundary (rest.drop 2) (contentLen rest) ∨ host.opens header.filename = false →
        out.ret = -1 ∧ out.file = none) := by
  rcases ends_or_endless boundary rest with hend | ⟨content, after, hend⟩
  · exact ⟨_, .noEnd boundary header rest hu hl hend, fun _ => ⟨rfl, rfl⟩⟩
  · cases hopen : host.opens header.filename
    · exact ⟨_, .notOpened boundary header rest content after hu hl hend hopen,
        fun _ => ⟨rfl, rfl⟩⟩
    · refine ⟨_, .saved boundary header rest content after hu hl hend hopen, ?_⟩
      rintro (hno | hno)
      · obtain ⟨hne, hit, hle⟩ := hend
        rcases hno with rfl | hno
        · exact absurd rfl hne
        · have habs := hno content.length hle
          rw [hit.drop_before] at habs
          exact absurd hit.hit habs
      · cases hno

/-- The parser is safe for a body exactly when its checks are enough for it. -/
theorem safe_iff (host : Host) (body : Bytes) : Safe host body ↔ Handled host body := by
  constructor
  · rintro ⟨out, hrun, hform⟩
    rw [recvSaveFile_eq_ok_iff] at hrun
    cases hrun with
    | unread hu => exact .unread hu
    | noBoundary _ hstop => exact .noBoundary hstop
    | noHeader boundary second _ hline hfit hstop => exact .noHeader boundary second hline hfit hstop
    | noEnd boundary header rest _ hl hend => exact .noEnd boundary header rest hl hend
    | notOpened boundary header rest _ _ _ hl _ hopen =>
      exact .notOpened boundary header rest hl hopen
    | saved boundary header rest content after hu hl hend hopen =>
      refine .documented boundary header rest hl ?_
      by_contra hno
      have hret := (hform hno).1
      simp at hret
  · intro h
    by_cases hu : Unread host body
    · exact ⟨_, recvSaveFile_eq_ok_iff.mpr (.unread hu), fun _ => ⟨rfl, rfl⟩⟩
    cases h with
    | unread h => exact absurd h hu
    | noBoundary hstop =>
      exact ⟨_, recvSaveFile_eq_ok_iff.mpr (.noBoundary hu hstop), fun _ => ⟨rfl, rfl⟩⟩
    | noHeader boundary second hline hfit hstop =>
      exact ⟨_, recvSaveFile_eq_ok_iff.mpr (.noHeader boundary second hu hline hfit hstop),
        fun _ => ⟨rfl, rfl⟩⟩
    | noEnd boundary header rest hl hend =>
      obtain ⟨out, hr, hrefused⟩ := hl.receives hu
      exact ⟨out, recvSaveFile_eq_ok_iff.mpr hr, fun _ => hrefused (.inl hend)⟩
    | notOpened boundary header rest hl hopen =>
      obtain ⟨out, hr, hrefused⟩ := hl.receives hu
      exact ⟨out, recvSaveFile_eq_ok_iff.mpr hr, fun _ => hrefused (.inr hopen)⟩
    | documented boundary header rest hl hdoc =>
      obtain ⟨out, hr, -⟩ := hl.receives hu
      exact ⟨out, recvSaveFile_eq_ok_iff.mpr hr, fun hno => absurd hdoc hno⟩

end safety

/-- A header line without the key `user=`, and a terminator after it. -/
def missingUser : Bytes := bytes "--b\r\nContent-Disposition: form-data\r\n" ++ [0]

/-- The null result of the first search in the header is used as a pointer. -/
theorem missingUser_breaks :
    recvSaveFile .roomy missingUser = .error .nullResult ∧ ¬ Safe .roomy missingUser := by
  have hrun : recvSaveFile .roomy missingUser = .error .nullResult := by decide
  refine ⟨hrun, ?_⟩
  rintro ⟨out, hout, -⟩
  rw [hrun] at hout
  cases hout

end CServer.CloudDisk
