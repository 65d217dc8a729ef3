import CServer.CloudDisk.Upload

/-!
# How a body is laid out

What the parser of an upload finds, as relations between the body and its parts:
lines, quoted fields, the size, the boundary after the content. Each stage of
`recvSaveFile` returns exactly the parts that the relation allows, and
`recvSaveFile_eq_ok_iff` puts the stages together: a run leaves no buffer and uses no
null result exactly when `Receives` holds, and then has that result.
-/
namespace CServer.CloudDisk

open Search

/-- The first `key` is at `rest`, and no terminator comes before. -/
structure Found (key text before rest : Bytes) : Prop extends FirstHit key text before rest where
  noNul : 0 ∉ before

/-- `text` begins with a line, `rest` follows its CRLF. -/
def Line (text line rest : Bytes) : Prop := Found crlf text line (crlf ++ rest)

/-- A field of the header: `value` stands between the byte after the key and the next quote,
which is the first of `k`. -/
def Quoted (key : String) (size : ℕ) (begin value k : Bytes) : Prop :=
  ∃ before c, Found (bytes key) begin before (bytes key ++ c :: (value ++ k)) ∧
    Found [quote] (value ++ k) value k ∧ value.length < size

/-- The size: `value` stands between the key and the next CRLF. -/
def Sized (begin value : Bytes) : Prop :=
  ∃ before rest, Found (bytes "size=") begin before (bytes "size=" ++ (value ++ rest)) ∧
    Found crlf (value ++ rest) value rest ∧ value.length < 256

/-- The four fields follow one another. -/
def HeaderRead (begin : Bytes) (header : UploadHeader) : Prop :=
  ∃ user k₁ filename k₂ md5 k₃ size,
    Quoted "user=" userNameLen begin user k₁ ∧ Quoted "filename=" fileNameLen k₁ filename k₂ ∧
    Quoted "md5=" md5Len k₂ md5 k₃ ∧ Sized k₃ size ∧
    header = ⟨trimSpace user, trimSpace filename, trimSpace md5, strtol size⟩

/-- Two lines that fit their buffers, the fields, and a third line: `rest` follows it. -/
def Layout (body boundary : Bytes) (header : UploadHeader) (rest : Bytes) : Prop :=
  ∃ second contentText third contentType,
    Line body boundary second ∧ boundary.length < tempBufMaxLen ∧
    Line second contentText third ∧ contentText.length < tempBufMaxLen ∧
    HeaderRead second header ∧ Line third contentType rest

/-- The length of what follows the empty line, as `memstr` receives it. -/
def contentLen (rest : Bytes) : ℤ := ((rest.length : ℤ) - 2).bmod (2 ^ 32)

/-- The boundary is at `rest` in the first `len` bytes of `text`. -/
def Ends (boundary text : Bytes) (len : ℤ) (content rest : Bytes) : Prop :=
  boundary ≠ [] ∧ FirstHit boundary text content rest ∧
    (content.length + boundary.length : ℤ) ≤ len

/-- There is no boundary in the first `len` bytes of `text`. -/
def Endless (boundary text : Bytes) (len : ℤ) : Prop :=
  boundary = [] ∨ ∀ i : ℕ, (i + boundary.length : ℤ) ≤ len → ¬ boundary <+: text.drop i

/-- No memory, or a number of bytes that the int makes 0. -/
def Unread (host : Host) (body : Bytes) : Prop :=
  host.allocates body.length = false ∨ (body.length : ℤ).bmod (2 ^ 32) = 0

/-- The file saved when the boundary is found after `content`. -/
def savedFile (host : Host) (header : UploadHeader) (text content : Bytes) : SavedFile :=
  ⟨header.filename, (content.length : ℤ) - 2,
    (text.take ((content.length : ℤ) - 2).toNat).take host.writeMax⟩

/-- The results of `recv_save_file`. -/
inductive Receives (host : Host) (body : Bytes) : Received → Prop where
  | unread : Unread host body → Receives host body (.failed .cleared)
  | noBoundary : ¬ Unread host body → Stopped 0 crlf body → Receives host body (.failed .cleared)
  | noHeader (boundary second : Bytes) : ¬ Unread host body → Line body boundary second →
      boundary.length < tempBufMaxLen → Stopped 0 crlf second →
      Receives host body (.failed .cleared)
  | noEnd (boundary : Bytes) (header : UploadHeader) (rest : Bytes) : ¬ Unread host body →
      Layout body boundary header rest → Endless boundary (rest.drop 2) (contentLen rest) →
      Receives host body (.failed header)
  | notOpened (boundary : Bytes) (header : UploadHeader) (rest content after : Bytes) :
      ¬ Unread host body → Layout body boundary header rest →
      Ends boundary (rest.drop 2) (contentLen rest) content after →
      host.opens header.filename = false → Receives host body (.failed header)
  | saved (boundary : Bytes) (header : UploadHeader) (rest content after : Bytes) :
      ¬ Unread host body → Layout body boundary header rest →
      Ends boundary (rest.drop 2) (contentLen rest) content after →
      host.opens header.filename = true →
      Receives host body ⟨0, header, some (savedFile host header (rest.drop 2) content)⟩

section stages

variable {α β : Type}

theorem bind_eq_ok_iff {x : Except Fault α} {f : α → Except Fault β} {b : β} :
    x >>= f = .ok b ↔ ∃ a, x = .ok a ∧ f a = .ok b := by
  cases x with
  | error fault => simp [Bind.bind, Except.bind]
  | ok a => simp [Bind.bind, Except.bind]

theorem unchecked_eq_ok_iff {x : Except Fault (Option α)} {a : α} :
    unchecked x = .ok a ↔ x = .ok (some a) := by
  rw [unchecked, bind_eq_ok_iff]
  constructor
  · rintro ⟨_ | hit, hx, h⟩
    · cases h
    · cases h
      exact hx
  · intro hx
    exact ⟨some a, hx, rfl⟩

theorem copyText_eq_ok_iff {size : ℕ} {source copied : Bytes} :
    copyText size source = .ok copied ↔ source = copied ∧ source.length < size := by
  rw [copyText]
  by_cases h : source.length < size <;> simp [h]

variable {text key before rest : Bytes}

theorem strstr_eq_some_iff :
    strstr text key = .ok (some (before, rest)) ↔ Found key text before rest := by
  have hfound : Found key text before rest ↔ search 0 key text = .found before rest := by
    rw [search_eq_found_iff]
    exact ⟨fun h => ⟨h.toFirstHit, h.noNul⟩, fun h => ⟨h.1, h.2⟩⟩
  rw [hfound, strstr]
  cases search 0 key text <;> simp

theorem strstr_eq_none_iff : strstr text key = .ok none ↔ Stopped 0 key text := by
  rw [← search_eq_absent_iff, strstr]
  cases search 0 key text <;> simp

/-- What is found starts with the key. -/
theorem Found.eq_append (h : Found key text before rest) : ∃ after, rest = key ++ after := by
  obtain ⟨after, hafter⟩ := h.hit
  exact ⟨after, hafter.symm⟩

theorem Line.unique {line line' rest' : Bytes} (h : Line text line rest)
    (h' : Line text line' rest') : line = line' ∧ rest = rest' := by
  have hu := h.toFirstHit.unique h'.toFirstHit
  exact ⟨hu.1, List.append_cancel_left hu.2⟩

theorem copyLine_eq_none_iff {size : ℕ} :
    copyLine size text = .ok none ↔ Stopped 0 crlf text := by
  rw [← strstr_eq_none_iff, copyLine, bind_eq_ok_iff]
  constructor
  · rintro ⟨_ | ⟨line, p⟩, hs, h⟩
    · exact hs
    · obtain ⟨copied, -, hret⟩ := (bind_eq_ok_iff).mp h
      cases hret
  · intro h
    exact ⟨none, h, rfl⟩

theorem copyLine_eq_some_iff {size : ℕ} {line : Bytes} :
    copyLine size text = .ok (some (line, rest)) ↔ Line text line rest ∧ line.length < size := by
  rw [copyLine, bind_eq_ok_iff]
  constructor
  · rintro ⟨_ | ⟨before, p⟩, hs, h⟩
    · cases h
    · obtain ⟨copied, hcopy, hret⟩ := (bind_eq_ok_iff).mp h
      obtain ⟨rfl, hfit⟩ := (copyText_eq_ok_iff).mp hcopy
      have hfound := (strstr_eq_some_iff).mp hs
      obtain ⟨after, rfl⟩ := hfound.eq_append
      cases hret
      exact ⟨hfound, hfit⟩
  · rintro ⟨hline, hfit⟩
    refine ⟨some (line, crlf ++ rest), (strstr_eq_some_iff).mpr hline, ?_⟩
    exact (bind_eq_ok_iff).mpr ⟨line, (copyText_eq_ok_iff).mpr ⟨rfl, hfit⟩, rfl⟩

/-- A search after the key and one more byte succeeds only if there is one more byte. -/
theorem found_past_key {after raw k : Bytes} {c : UInt8}
    (h : Found [c] ((key ++ after).drop (key.length + 1)) raw k) :
    ∃ d, after = d :: (raw ++ k) := by
  have hdrop : (key ++ after).drop (key.length + 1) = after.drop 1 := by
    rw [List.drop_append, List.drop_of_length_le (Nat.le_succ _), Nat.add_sub_cancel_left,
      List.nil_append]
  have hsplit := h.split
  rw [hdrop] at hsplit
  cases after with
  | nil =>
    obtain ⟨s, hs⟩ := h.hit
    have hnil : raw ++ k = [] := hsplit.symm
    rw [← hs] at hnil
    simp at hnil
  | cons d after => exact ⟨d, by rw [← hsplit]; rfl⟩

theorem drop_past_key {after : Bytes} {d : UInt8} :
    (key ++ d :: after).drop (key.length + 1) = after := by
  rw [List.drop_append, List.drop_of_length_le (Nat.le_succ _), Nat.add_sub_cancel_left]
  rfl

theorem quotedField_eq_ok_iff {name : String} {size : ℕ} {value k : Bytes} :
    quotedField name size text = .ok (value, k) ↔
      ∃ raw, Quoted name size text raw k ∧ value = trimSpace raw := by
  rw [quotedField, bind_eq_ok_iff]
  constructor
  · rintro ⟨⟨before, q⟩, hkey, h⟩
    obtain ⟨⟨raw, k'⟩, hclose, h⟩ := (bind_eq_ok_iff).mp h
    obtain ⟨copied, hcopy, hret⟩ := (bind_eq_ok_iff).mp h
    obtain ⟨rfl, hfit⟩ := (copyText_eq_ok_iff).mp hcopy
    cases hret
    have hfound := (strstr_eq_some_iff).mp ((unchecked_eq_ok_iff).mp hkey)
    have hclosed := (strstr_eq_some_iff).mp ((unchecked_eq_ok_iff).mp hclose)
    obtain ⟨after, rfl⟩ := hfound.eq_append
    obtain ⟨d, rfl⟩ := found_past_key hclosed
    rw [drop_past_key] at hclosed
    exact ⟨raw, ⟨before, d, hfound, hclosed, hfit⟩, rfl⟩
  · rintro ⟨raw, ⟨before, d, hfound, hclosed, hfit⟩, rfl⟩
    refine ⟨_, (unchecked_eq_ok_iff).mpr ((strstr_eq_some_iff).mpr hfound), ?_⟩
    refine (bind_eq_ok_iff).mpr ⟨(raw, k), (unchecked_eq_ok_iff).mpr ?_, ?_⟩
    · rw [strchr, drop_past_key]
      exact (strstr_eq_some_iff).mpr hclosed
    · exact (bind_eq_ok_iff).mpr ⟨raw, (copyText_eq_ok_iff).mpr ⟨rfl, hfit⟩, rfl⟩

theorem sizeField_eq_ok_iff {size : ℤ} :
    sizeField text = .ok size ↔ ∃ raw, Sized text raw ∧ size = strtol raw := by
  rw [sizeField, bind_eq_ok_iff]
  constructor
  · rintro ⟨⟨before, q⟩, hkey, h⟩
    obtain ⟨⟨raw, rest⟩, hclose, h⟩ := (bind_eq_ok_iff).mp h
    obtain ⟨copied, hcopy, hret⟩ := (bind_eq_ok_iff).mp h
    obtain ⟨rfl, hfit⟩ := (copyText_eq_ok_iff).mp hcopy
    cases hret
    have hfound := (strstr_eq_some_iff).mp ((unchecked_eq_ok_iff).mp hkey)
    have hclosed := (strstr_eq_some_iff).mp ((unchecked_eq_ok_iff).mp hclose)
    obtain ⟨after, rfl⟩ := hfound.eq_append
    rw [List.drop_left] at hclosed
    have hsplit : after = raw ++ rest := hclosed.split
    subst hsplit
    exact ⟨raw, ⟨before, rest, hfound, hclosed, hfit⟩, rfl⟩
  · rintro ⟨raw, ⟨before, rest, hfound, hclosed, hfit⟩, rfl⟩
    refine ⟨_, (unchecked_eq_ok_iff).mpr ((strstr_eq_some_iff).mpr hfound), ?_⟩
    refine (bind_eq_ok_iff).mpr ⟨(raw, rest), (unchecked_eq_ok_iff).mpr ?_, ?_⟩
    · rw [List.drop_left]
      exact (strstr_eq_some_iff).mpr hclosed
    · exact (bind_eq_ok_iff).mpr ⟨raw, (copyText_eq_ok_iff).mpr ⟨rfl, hfit⟩, rfl⟩

theorem headerFields_eq_ok_iff {header : UploadHeader} :
    headerFields text = .ok header ↔ HeaderRead text header := by
  rw [headerFields, bind_eq_ok_iff]
  constructor
  · rintro ⟨⟨_, k₁⟩, h₁, h⟩
    obtain ⟨⟨_, k₂⟩, h₂, h⟩ := (bind_eq_ok_iff).mp h
    obtain ⟨⟨_, k₃⟩, h₃, h⟩ := (bind_eq_ok_iff).mp h
    obtain ⟨_, h₄, hret⟩ := (bind_eq_ok_iff).mp h
    obtain ⟨user, huser, rfl⟩ := (quotedField_eq_ok_iff).mp h₁
    obtain ⟨filename, hfilename, rfl⟩ := (quotedField_eq_ok_iff).mp h₂
    obtain ⟨md5, hmd5, rfl⟩ := (quotedField_eq_ok_iff).mp h₃
    obtain ⟨size, hsize, rfl⟩ := (sizeField_eq_ok_iff).mp h₄
    cases hret
    exact ⟨user, k₁, filename, k₂, md5, k₃, size, huser, hfilename, hmd5, hsize, rfl⟩
  · rintro ⟨user, k₁, filename, k₂, md5, k₃, size, huser, hfilename, hmd5, hsize, rfl⟩
    refine ⟨_, (quotedField_eq_ok_iff).mpr ⟨user, huser, rfl⟩, ?_⟩
    refine (bind_eq_ok_iff).mpr ⟨_, (quotedField_eq_ok_iff).mpr ⟨filename, hfilename, rfl⟩, ?_⟩
    refine (bind_eq_ok_iff).mpr ⟨_, (quotedField_eq_ok_iff).mpr ⟨md5, hmd5, rfl⟩, ?_⟩
    exact (bind_eq_ok_iff).mpr ⟨_, (sizeField_eq_ok_iff).mpr ⟨size, hsize, rfl⟩, rfl⟩

end stages

section memstr

variable {substr text : Bytes} {len : ℤ}

/-- As long as every place it tries lies in the buffer, the loop is a scan. -/
theorem memstrLoop_eq_scan {n : ℕ} (hs : substr ≠ []) (hn : n + substr.length ≤ text.length + 1) :
    memstrLoop substr n text = .ok (scan substr n text) := by
  induction n generalizing text with
  | zero => rfl
  | succ n ih =>
    have hpos : 0 < substr.length := List.length_pos_iff.mpr hs
    cases text with
    | nil =>
      simp only [List.length_nil] at hn
      omega
    | cons c cur =>
      simp only [List.length_cons] at hn
      have hin : ¬ (substr.head? = some c ∧ cur.length + 1 < substr.length) := by omega
      rw [memstrLoop, if_neg hin, scan]
      by_cases hp : substr <+: c :: cur
      · rw [if_pos hp, if_pos hp]
      · rw [if_neg hp, if_neg hp, ih (by omega)]
        rfl

theorem memstr_eq (hlen : len ≤ text.length) : memstr text len substr =
    .ok (if substr = [] then none else scan substr (len - substr.length + 1).toNat text) := by
  rw [memstr]
  by_cases hs : substr = []
  · rw [if_pos (Or.inr hs), if_pos hs]
  · have hpos : 0 < substr.length := List.length_pos_iff.mpr hs
    rw [if_neg hs]
    by_cases h0 : len ≤ 0
    · have hz : (len - substr.length + 1).toNat = 0 := by omega
      rw [if_pos (Or.inl h0), hz, scan]
    · rw [if_neg (by tauto)]
      by_cases hz : (len - substr.length + 1).toNat = 0
      · rw [hz]
        rfl
      · exact memstrLoop_eq_scan hs (by omega)

theorem memstr_eq_some_iff (hlen : len ≤ text.length) {content after : Bytes} :
    memstr text len substr = .ok (some (content, after)) ↔ Ends substr text len content after := by
  rw [memstr_eq hlen, Ends]
  by_cases hs : substr = []
  · simp [hs]
  · rw [if_neg hs, Except.ok.injEq, scan_eq_some_iff]
    constructor
    · rintro ⟨hit, hlt⟩
      exact ⟨hs, hit, by omega⟩
    · rintro ⟨-, hit, hle⟩
      exact ⟨hit, by omega⟩

theorem memstr_eq_none_iff (hlen : len ≤ text.length) :
    memstr text len substr = .ok none ↔ Endless substr text len := by
  rw [memstr_eq hlen, Endless]
  by_cases hs : substr = []
  · simp [hs]
  · rw [if_neg hs, Except.ok.injEq, scan_eq_none_iff]
    constructor
    · intro h
      refine Or.inr (fun i hi => h i (by omega) (by omega))
    · rintro (h | h)
      · exact absurd h hs
      · intro i hi _
        exact h i (by omega)

theorem contentLen_le (rest : Bytes) : contentLen rest ≤ (rest.drop 2).length := by
  rw [contentLen, Int.bmod_def, List.length_drop]
  split <;> omega

end memstr

theorem saveContent_eq_ok_iff {host : Host} {boundary rest : Bytes} {header : UploadHeader}
    {out : Received} :
    saveContent host boundary header (rest.drop 2) ((rest.length : ℤ) - 2) = .ok out ↔
      (Endless boundary (rest.drop 2) (contentLen rest) ∧ out = .failed header) ∨
      ∃ content after, Ends boundary (rest.drop 2) (contentLen rest) content after ∧
        ((host.opens header.filename = false ∧ out = .failed header) ∨
          (host.opens header.filename = true ∧
            out = ⟨0, header, some (savedFile host header (rest.drop 2) content)⟩)) := by
  have hlen := contentLen_le rest
  rw [saveContent, ← contentLen, bind_eq_ok_iff]
  constructor
  · rintro ⟨_ | ⟨content, after⟩, hm, h⟩
    · cases h
      exact .inl ⟨(memstr_eq_none_iff hlen).mp hm, rfl⟩
    · refine .inr ⟨content, after, (memstr_eq_some_iff hlen).mp hm, ?_⟩
      cases ho : host.opens header.filename
      · simp only [ho, Bool.false_eq_true, if_false] at h
        cases h
        exact .inl ⟨rfl, rfl⟩
      · simp only [ho, if_true] at h
        cases h
        exact .inr ⟨rfl, rfl⟩
  · rintro (⟨hm, rfl⟩ | ⟨content, after, hm, ⟨ho, rfl⟩ | ⟨ho, rfl⟩⟩)
    · exact ⟨none, (memstr_eq_none_iff hlen).mpr hm, rfl⟩
    · refine ⟨some (content, after), (memstr_eq_some_iff hlen).mpr hm, ?_⟩
      simp only [ho, Bool.false_eq_true, if_false]
      rfl
    · refine ⟨some (content, after), (memstr_eq_some_iff hlen).mpr hm, ?_⟩
      simp only [ho, if_true]
      rfl

section recvSaveFile

variable {host : Host} {body : Bytes} {out : Received}

/-- The length left after two lines and the third is that of the buffer left. -/
theorem remaining_length {second third rest boundary contentText contentType : Bytes}
    (h₁ : Line body boundary second) (h₂ : Line second contentText third)
    (h₃ : Line third contentType rest) :
    (body.length : ℤ) - (boundary.length + 2) - (contentText.length + 2) -
      (contentType.length + 4) = rest.length - 2 := by
  have e₁ := h₁.length_eq
  have e₂ := h₂.length_eq
  have e₃ := h₃.length_eq
  simp only [List.length_append, List.length_cons, List.length_nil] at e₁ e₂ e₃
  omega

theorem drop_crlf (rest : Bytes) : (crlf ++ rest).drop 4 = rest.drop 2 := rfl

/-- A pair of lines, the fields and the third line are read as the layout says. -/
theorem recvContent_eq_ok_iff {boundary second third contentText : Bytes}
    (h₁ : Line body boundary second) (h₂ : Line second contentText third) :
    recvContent host boundary second third
        ((body.length : ℤ) - (boundary.length + 2) - (contentText.length + 2)) = .ok out ↔
      ∃ header contentType rest, HeaderRead second header ∧ Line third contentType rest ∧
        saveContent host boundary header (rest.drop 2) ((rest.length : ℤ) - 2) = .ok out := by
  rw [recvContent, bind_eq_ok_iff]
  constructor
  · rintro ⟨header, hfields, h⟩
    obtain ⟨⟨contentType, p⟩, htype, hsave⟩ := (bind_eq_ok_iff).mp h
    have hfound := (strstr_eq_some_iff).mp ((unchecked_eq_ok_iff).mp htype)
    obtain ⟨rest, rfl⟩ := hfound.eq_append
    refine ⟨header, contentType, rest, (headerFields_eq_ok_iff).mp hfields, hfound, ?_⟩
    rw [← remaining_length h₁ h₂ hfound, ← drop_crlf]
    exact hsave
  · rintro ⟨header, contentType, rest, hfields, hfound, hsave⟩
    refine ⟨header, (headerFields_eq_ok_iff).mpr hfields, ?_⟩
    refine (bind_eq_ok_iff).mpr ⟨(contentType, crlf ++ rest), ?_, ?_⟩
    · exact (unchecked_eq_ok_iff).mpr ((strstr_eq_some_iff).mpr hfound)
    · rw [← remaining_length h₁ h₂ hfound, ← drop_crlf] at hsave
      exact hsave

theorem recvHeader_eq_ok_iff {boundary second : Bytes} (hb : Line body boundary second)
    (hfit : boundary.length < tempBufMaxLen) :
    recvHeader host boundary second ((body.length : ℤ) - (boundary.length + 2)) = .ok out ↔
      (Stopped 0 crlf second ∧ out = .failed .cleared) ∨
      ∃ header rest, Layout body boundary header rest ∧
        saveContent host boundary header (rest.drop 2) ((rest.length : ℤ) - 2) = .ok out := by
  rw [recvHeader, bind_eq_ok_iff]
  constructor
  · rintro ⟨_ | ⟨contentText, third⟩, hc, h⟩
    · cases h
      exact .inl ⟨(copyLine_eq_none_iff).mp hc, rfl⟩
    · obtain ⟨hline, hlineFit⟩ := (copyLine_eq_some_iff).mp hc
      obtain ⟨header, contentType, rest, hfields, htype, hsave⟩ :=
        (recvContent_eq_ok_iff hb hline).mp h
      exact .inr ⟨header, rest,
        ⟨second, contentText, third, contentType, hb, hfit, hline, hlineFit, hfields, htype⟩, hsave⟩
  · rintro (⟨hstop, rfl⟩ | ⟨header, rest, hlayout, hsave⟩)
    · exact ⟨none, (copyLine_eq_none_iff).mpr hstop, rfl⟩
    · obtain ⟨second', contentText, third, contentType, hb', -, hline, hlineFit, hfields, htype⟩ :=
        hlayout
      obtain ⟨-, rfl⟩ := hb.unique hb'
      exact ⟨some (contentText, third), (copyLine_eq_some_iff).mpr ⟨hline, hlineFit⟩,
        (recvContent_eq_ok_iff hb hline).mpr ⟨header, contentType, rest, hfields, htype, hsave⟩⟩

/-- What a run returns, and that it returns. -/
theorem recvSaveFile_eq_ok_iff : recvSaveFile host body = .ok out ↔ Receives host body out := by
  rw [recvSaveFile]
  by_cases hu : host.allocates body.length = false ∨ (body.length : ℤ).bmod (2 ^ 32) = 0
  · rw [if_pos hu]
    constructor
    · intro h
      cases h
      exact .unread hu
    · intro h
      cases h with
      | unread => rfl
      | noBoundary h' => exact absurd hu h'
      | noHeader _ _ h' => exact absurd hu h'
      | noEnd _ _ _ h' => exact absurd hu h'
      | notOpened _ _ _ _ _ h' => exact absurd hu h'
      | saved _ _ _ _ _ h' => exact absurd hu h'
  · rw [if_neg hu, bind_eq_ok_iff]
    constructor
    · rintro ⟨_ | ⟨boundary, second⟩, hb, h⟩
      · cases h
        exact .noBoundary hu ((copyLine_eq_none_iff).mp hb)
      obtain ⟨hline, hfit⟩ := (copyLine_eq_some_iff).mp hb
      rcases (recvHeader_eq_ok_iff hline hfit).mp h with ⟨hstop, rfl⟩ | ⟨header, rest, hl, hsave⟩
      · exact .noHeader boundary second hu hline hfit hstop
      rcases (saveContent_eq_ok_iff).mp hsave with
        ⟨hend, rfl⟩ | ⟨content, after, hend, ⟨hopen, rfl⟩ | ⟨hopen, rfl⟩⟩
      · exact .noEnd boundary header rest hu hl hend
      · exact .notOpened boundary header rest content after hu hl hend hopen
      · exact .saved boundary header rest content after hu hl hend hopen
    · -- with a layout, the run comes to `saveContent`
      have hcome : ∀ boundary header rest, Layout body boundary header rest →
          saveContent host boundary header (rest.drop 2) ((rest.length : ℤ) - 2) = .ok out →
          ∃ second, copyLine tempBufMaxLen body = .ok (some (boundary, second)) ∧
            recvHeader host boundary second ((body.length : ℤ) - (boundary.length + 2)) =
              .ok out := by
        intro boundary header rest hl hsave
        obtain ⟨second, _, _, _, hline, hfit, -⟩ := id hl
        exact ⟨second, (copyLine_eq_some_iff).mpr ⟨hline, hfit⟩,
          (recvHeader_eq_ok_iff hline hfit).mpr (.inr ⟨header, rest, hl, hsave⟩)⟩
      intro h
      cases h with
      | unread h' => exact absurd h' hu
      | noBoundary _ hstop => exact ⟨none, (copyLine_eq_none_iff).mpr hstop, rfl⟩
      | noHeader boundary second _ hline hfit hstop =>
        exact ⟨some (boundary, second), (copyLine_eq_some_iff).mpr ⟨hline, hfit⟩,
          (recvHeader_eq_ok_iff hline hfit).mpr (.inl ⟨hstop, rfl⟩)⟩
      | noEnd boundary header rest _ hl hend =>
        obtain ⟨second, hc, hr⟩ := hcome boundary header rest hl
          ((saveContent_eq_ok_iff).mpr (.inl ⟨hend, rfl⟩))
        exact ⟨some (boundary, second), hc, hr⟩
      | notOpened boundary header rest content after _ hl hend hopen =>
        obtain ⟨second, hc, hr⟩ := hcome boundary header rest hl
          ((saveContent_eq_ok_iff).mpr (.inr ⟨content, after, hend, .inl ⟨hopen, rfl⟩⟩))
        exact ⟨some (boundary, second), hc, hr⟩
      | saved boundary header rest content after _ hl hend hopen =>
        obtain ⟨second, hc, hr⟩ := hcome boundary header rest hl
          ((saveContent_eq_ok_iff).mpr (.inr ⟨content, after, hend, .inr ⟨hopen, rfl⟩⟩))
        exact ⟨some (boundary, second), hc, hr⟩

end recvSaveFile

end CServer.CloudDisk
