import CServer.CloudDisk.UploadLayout

/-!
# An upload is read back

The form of a body as the comments of upload_cgi.c give it, and the uploads a client
can put into that form. The parser gives back each of them, fields and content, as
long as the second line fits the buffer `content_text`. The buffers of the fields
together hold more than that one, so that some uploads whose fields all fit do not.
-/
namespace CServer.CloudDisk

open Search

/-- The second line. -/
def headerLine (user filename md5 size : Bytes) : Bytes :=
  bytes "Content-Disposition: form-data; user=\"" ++ (user ++ (bytes "\"; filename=\"" ++
    (filename ++ (bytes "\"; md5=\"" ++ (md5 ++ (bytes "\"; size=" ++ size))))))

def contentTypeLine : Bytes := bytes "Content-Type: application/octet-stream"

/-- The lines, the content and the closing boundary. -/
def multipart (boundary headerLine content tail : Bytes) : Bytes :=
  boundary ++ (crlf ++ (headerLine ++ (crlf ++ (contentTypeLine ++ (crlf ++ (crlf ++
    (content ++ crlf ++ (boundary ++ tail))))))))

/-- A value that a quoted field can carry, in a buffer of `size` bytes. -/
structure FieldText (size : ℕ) (value : Bytes) : Prop where
  nonempty : value ≠ []
  fits : value.length < size
  plain : ∀ c ∈ value, c ≠ quote ∧ c ≠ 13 ∧ c ≠ 10 ∧ c ≠ 0
  head : ∀ c ∈ value.head?, isspace c = false
  last : ∀ c ∈ value.getLast?, isspace c = false

/-- An upload: its boundary, the values of its header, and the content. -/
structure Upload where
  boundary : Bytes
  user : Bytes
  filename : Bytes
  md5 : Bytes
  size : ℤ
  content : Bytes
  boundary_nonempty : boundary ≠ []
  boundary_plain : ∀ c ∈ boundary, c ≠ 13 ∧ c ≠ 10 ∧ c ≠ 0
  boundary_fits : boundary.length < tempBufMaxLen
  user_text : FieldText userNameLen user
  filename_text : FieldText fileNameLen filename
  md5_text : FieldText md5Len md5
  size_long : -(2 ^ 63) ≤ size ∧ size < 2 ^ 63
  boundary_free : ¬ boundary <:+: content

/-- A property of every byte of a given text, decided byte by byte. -/
theorem forall_mem_of_all {p : UInt8 → Prop} [DecidablePred p] {l : Bytes}
    (h : l.all (fun c => decide (p c)) = true) : ∀ c ∈ l, p c := by
  intro c hc
  exact of_decide_eq_true (List.all_eq_true.mp h c hc)

theorem FieldText.of_all {size : ℕ} {value : Bytes} (hne : value ≠ []) (hfits : value.length < size)
    (hplain : value.all (fun c => decide (c ≠ quote ∧ c ≠ 13 ∧ c ≠ 10 ∧ c ≠ 0)) = true)
    (hhead : value.head?.all (fun c => !isspace c) = true)
    (hlast : value.getLast?.all (fun c => !isspace c) = true) : FieldText size value where
  nonempty := hne
  fits := hfits
  plain := forall_mem_of_all hplain
  head c hc := by
    rw [Option.mem_def.mp hc] at hhead
    simpa using hhead
  last c hc := by
    rw [Option.mem_def.mp hc] at hlast
    simpa using hlast

namespace Upload

variable (u : Upload)

def sizeText : Bytes := bytes (toString u.size)

def headerLine : Bytes := CloudDisk.headerLine u.user u.filename u.md5 u.sizeText

/-- The body a client sends. -/
def body : Bytes := multipart u.boundary u.headerLine u.content (bytes "--\r\n")

def header : UploadHeader := ⟨u.user, u.filename, u.md5, u.size⟩

/-- What the parser should return and save. -/
def received : Received := ⟨0, u.header, some ⟨u.filename, u.content.length, u.content⟩⟩

end Upload

section decimal

theorem bytes_append (s t : String) : bytes (s ++ t) = bytes s ++ bytes t := by
  simp [bytes]

theorem toNat_ofNat_of_isDigit {c : Char} (h : c.isDigit = true) :
    (UInt8.ofNat c.toNat).toNat = c.toNat := by
  have hc : c.toNat ≤ 57 := by
    simp only [Char.isDigit, Bool.and_eq_true, decide_eq_true_eq] at h
    exact h.2
  rw [UInt8.toNat_ofNat']
  omega

theorem isdigit_ofNat {c : Char} (h : c.isDigit = true) : isdigit (UInt8.ofNat c.toNat) = true := by
  have hn := toNat_ofNat_of_isDigit h
  simp only [Char.isDigit, Bool.and_eq_true, decide_eq_true_eq] at h
  simp only [isdigit, Bool.and_eq_true, decide_eq_true_eq, UInt8.le_iff_toNat_le, hn]
  exact h

theorem isdigit_of_mem_repr {n : ℕ} {c : UInt8} (h : c ∈ bytes n.repr) : isdigit c = true := by
  rw [bytes, Nat.toList_repr] at h
  obtain ⟨d, hd, rfl⟩ := List.mem_map.mp h
  exact isdigit_ofNat (Nat.isDigit_of_mem_toDigits (by decide) (by decide) hd)

theorem isspace_of_isdigit {c : UInt8} (h : isdigit c = true) : isspace c = false := by
  simp only [isdigit, isspace, Bool.and_eq_true, Bool.or_eq_false_iff, Bool.and_eq_false_iff,
    decide_eq_true_eq, decide_eq_false_iff_not, UInt8.le_iff_toNat_le, ← UInt8.toNat_inj] at h ⊢
  have h48 : (48 : UInt8).toNat = 48 := rfl
  have h32 : (32 : UInt8).toNat = 32 := rfl
  have h13 : (13 : UInt8).toNat = 13 := rfl
  omega

theorem digitsValue_repr (n : ℕ) : digitsValue (bytes n.repr) = n := by
  have hall : (bytes n.repr).takeWhile isdigit = bytes n.repr :=
    List.takeWhile_eq_self_iff.mpr (fun c hc => isdigit_of_mem_repr hc)
  rw [digitsValue, hall, bytes, Nat.toList_repr, List.foldl_map]
  have hfold : ∀ (l : List Char) (k : ℕ), (∀ c ∈ l, c.isDigit = true) →
      l.foldl (fun n c => 10 * n + ((UInt8.ofNat c.toNat).toNat - 48)) k =
        Nat.ofDigitChars 10 l k := by
    intro l
    induction l with
    | nil => exact fun _ _ => rfl
    | cons c l ih =>
      intro k hl
      rw [List.foldl_cons, Nat.ofDigitChars_cons, toNat_ofNat_of_isDigit (hl c List.mem_cons_self),
        ih _ (fun d hd => hl d (List.mem_cons_of_mem c hd))]
      rfl
  rw [hfold _ 0 (fun c hc => Nat.isDigit_of_mem_toDigits (by decide) (by decide) hc),
    Nat.ofDigitChars_ten_toDigits]

theorem bytes_repr_ne_nil (n : ℕ) : bytes n.repr ≠ [] := by
  rw [bytes, Nat.toList_repr]
  simp [Nat.toDigits_ne_nil]

theorem bytes_negSucc (n : ℕ) :
    bytes (toString (Int.negSucc n)) = 45 :: bytes (n + 1).repr := by
  show bytes ("-" ++ (n + 1).repr) = _
  rw [bytes_append]
  rfl

/-- `strtol` reads a decimal of a long as its value. -/
theorem strtol_decimal {z : ℤ} (hz : -(2 ^ 63) ≤ z ∧ z < 2 ^ 63) :
    strtol (bytes (toString z)) = z := by
  cases z with
  | ofNat n =>
    have hrepr : bytes (toString (Int.ofNat n)) = bytes n.repr := rfl
    rw [hrepr]
    obtain ⟨c, s, hs⟩ := List.exists_cons_of_ne_nil (bytes_repr_ne_nil n)
    have hc : isdigit c = true := isdigit_of_mem_repr (hs ▸ List.mem_cons_self)
    have hval := digitsValue_repr n
    rw [hs] at hval ⊢
    rw [strtol, List.dropWhile_cons_of_neg (by simp [isspace_of_isdigit hc])]
    split
    · next heq =>
      obtain ⟨rfl, -⟩ := List.cons_eq_cons.mp heq
      exact absurd hc (by decide)
    · next heq =>
      obtain ⟨rfl, -⟩ := List.cons_eq_cons.mp heq
      exact absurd hc (by decide)
    · rw [hval]
      have hn : Int.ofNat n = (n : ℤ) := rfl
      omega
  | negSucc n =>
    rw [bytes_negSucc, strtol, List.dropWhile_cons_of_neg (by decide)]
    simp only [digitsValue_repr]
    omega

end decimal

section plain

theorem trimSpace_eq {size : ℕ} {value : Bytes} (h : FieldText size value) :
    trimSpace value = value := by
  have hdrop : value.dropWhile isspace = value := by
    cases value with
    | nil => rfl
    | cons c value =>
      rw [List.dropWhile_cons_of_neg]
      simp [h.head c rfl]
  rw [trimSpace, hdrop, List.rdropWhile_eq_self_iff]
  intro hne
  have hlast := h.last (value.getLast hne) (List.getLast?_eq_some_getLast hne)
  simp [hlast]

/-- A key is found where no byte before is its first. -/
theorem found_of_head {key before rest : Bytes} (hkey : key ≠ [])
    (hb : ∀ c ∈ before, key.head? ≠ some c ∧ c ≠ 0) (h : key <+: rest) :
    Found key (before ++ rest) before rest := by
  obtain ⟨a, key, rfl⟩ := List.exists_cons_of_ne_nil hkey
  refine ⟨FirstHit.of_head_notMem ?_ h, ?_⟩
  · intro ha
    exact (hb a ha).1 rfl
  · intro h0
    exact (hb 0 h0).2 rfl

theorem line_of_plain {line rest : Bytes} (h : ∀ c ∈ line, c ≠ 13 ∧ c ≠ 0) :
    Line (line ++ (crlf ++ rest)) line rest := by
  apply found_of_head (by decide)
  · intro c hc
    refine ⟨?_, (h c hc).2⟩
    intro heq
    exact (h c hc).1 (Option.some.inj heq).symm
  · exact List.prefix_append crlf rest

theorem quoted_of_plain {name : String} {size : ℕ} {before value after : Bytes}
    (hname : bytes name ≠ []) (hb : ∀ c ∈ before, (bytes name).head? ≠ some c ∧ c ≠ 0)
    (hv : FieldText size value) :
    Quoted name size (before ++ (bytes name ++ quote :: (value ++ quote :: after))) value
      (quote :: after) := by
  refine ⟨before, quote, found_of_head hname hb (List.prefix_append _ _), ?_, hv.fits⟩
  apply found_of_head (by decide)
  · intro c hc
    refine ⟨?_, (hv.plain c hc).2.2.2⟩
    intro heq
    exact (hv.plain c hc).1 (Option.some.inj heq).symm
  · exact ⟨after, rfl⟩

/-- The search for the next field starts at the quote that closes the value before. -/
theorem quoted_of_closing {name : String} {size : ℕ} {value after : Bytes}
    (hname : bytes name ≠ []) (hb : ∀ c ∈ quote :: bytes "; ", (bytes name).head? ≠ some c ∧ c ≠ 0)
    (hv : FieldText size value) :
    Quoted name size (quote :: (bytes "; " ++ (bytes name ++ quote :: (value ++ quote :: after))))
      value (quote :: after) := by
  rw [← List.cons_append]
  exact quoted_of_plain hname hb hv

/-- The second line, cut at the keys and at the quotes. -/
theorem headerLine_append (user filename md5 size rest : Bytes) :
    headerLine user filename md5 size ++ rest =
      bytes "Content-Disposition: form-data; " ++ (bytes "user=" ++ quote :: (user ++ quote ::
        (bytes "; " ++ (bytes "filename=" ++ quote :: (filename ++ quote ::
          (bytes "; " ++ (bytes "md5=" ++ quote :: (md5 ++ quote ::
            (bytes "; " ++ (bytes "size=" ++ (size ++ rest))))))))))) := by
  have huser : bytes "Content-Disposition: form-data; user=\"" =
      bytes "Content-Disposition: form-data; " ++ (bytes "user=" ++ [quote]) := by decide
  have hfilename : bytes "\"; filename=\"" =
      quote :: (bytes "; " ++ (bytes "filename=" ++ [quote])) := by decide
  have hmd5 : bytes "\"; md5=\"" = quote :: (bytes "; " ++ (bytes "md5=" ++ [quote])) := by decide
  have hsize : bytes "\"; size=" = quote :: (bytes "; " ++ bytes "size=") := by decide
  rw [headerLine, huser, hfilename, hmd5, hsize]
  simp only [List.append_assoc, List.cons_append, List.nil_append]

theorem sized_of_plain {before value after : Bytes}
    (hb : ∀ c ∈ before, (bytes "size=").head? ≠ some c ∧ c ≠ 0)
    (hv : ∀ c ∈ value, c ≠ 13 ∧ c ≠ 0) (hfit : value.length < 256) :
    Sized (before ++ (bytes "size=" ++ (value ++ (crlf ++ after)))) value := by
  refine ⟨before, crlf ++ after, found_of_head (by decide) hb (List.prefix_append _ _), ?_, hfit⟩
  exact line_of_plain hv

end plain

namespace Upload

variable (u : Upload)

/-- The body from the second line on. -/
def second : Bytes := u.headerLine ++ (crlf ++ (contentTypeLine ++ (crlf ++ (crlf ++
    (u.content ++ crlf ++ (u.boundary ++ bytes "--\r\n"))))))

/-- The body from the empty line on. -/
def afterType : Bytes := crlf ++ (u.content ++ crlf ++ (u.boundary ++ bytes "--\r\n"))

theorem boundaryLine : Line u.body u.boundary u.second :=
  line_of_plain (fun c hc => ⟨(u.boundary_plain c hc).1, (u.boundary_plain c hc).2.2⟩)

theorem sizeText_cases : ∃ n : ℕ, n < 10 ^ 20 ∧
    (u.sizeText = bytes n.repr ∨ u.sizeText = 45 :: bytes n.repr) := by
  obtain ⟨hlo, hhi⟩ := u.size_long
  rw [sizeText]
  cases hsize : u.size with
  | ofNat n =>
    rw [hsize] at hhi
    refine ⟨n, ?_, .inl rfl⟩
    have hn : Int.ofNat n = (n : ℤ) := rfl
    omega
  | negSucc n =>
    rw [hsize] at hlo
    refine ⟨n + 1, by omega, .inr ?_⟩
    exact bytes_negSucc n

theorem sizeText_plain : ∀ c ∈ u.sizeText, c ≠ 13 ∧ c ≠ 0 := by
  have hdigit : ∀ c, isdigit c = true → c ≠ 13 ∧ c ≠ 0 := by
    intro c hc
    constructor
    · rintro rfl
      exact absurd hc (by decide)
    · rintro rfl
      exact absurd hc (by decide)
  obtain ⟨n, -, hn | hn⟩ := u.sizeText_cases
  · rw [hn]
    exact fun c hc => hdigit c (isdigit_of_mem_repr hc)
  · rw [hn, List.forall_mem_cons]
    exact ⟨by decide, fun c hc => hdigit c (isdigit_of_mem_repr hc)⟩

theorem sizeText_fits : u.sizeText.length < 256 := by
  have hlen : ∀ n : ℕ, n < 10 ^ 20 → (bytes n.repr).length ≤ 20 := by
    intro n hn
    rw [bytes, Nat.toList_repr, List.length_map]
    exact (Nat.length_toDigits_le_iff (by decide) (by decide)).mpr hn
  obtain ⟨n, hlt, hn | hn⟩ := u.sizeText_cases
  · have hle := hlen n hlt
    rw [hn]
    omega
  · have hle := hlen n hlt
    rw [hn, List.length_cons]
    omega

theorem headerLine_plain : ∀ c ∈ u.headerLine, c ≠ 13 ∧ c ≠ 0 := by
  have hfield : ∀ {size value}, FieldText size value → ∀ c ∈ value, c ≠ 13 ∧ c ≠ 0 :=
    fun h c hc => ⟨(h.plain c hc).2.1, (h.plain c hc).2.2.2⟩
  intro c hc
  simp only [headerLine, CloudDisk.headerLine, List.mem_append] at hc
  rcases hc with hc | hc | hc | hc | hc | hc | hc | hc
  · exact forall_mem_of_all (p := fun c => c ≠ 13 ∧ c ≠ 0) (by decide) c hc
  · exact hfield u.user_text c hc
  · exact forall_mem_of_all (p := fun c => c ≠ 13 ∧ c ≠ 0) (by decide) c hc
  · exact hfield u.filename_text c hc
  · exact forall_mem_of_all (p := fun c => c ≠ 13 ∧ c ≠ 0) (by decide) c hc
  · exact hfield u.md5_text c hc
  · exact forall_mem_of_all (p := fun c => c ≠ 13 ∧ c ≠ 0) (by decide) c hc
  · exact u.sizeText_plain c hc

theorem headerRead : HeaderRead u.second u.header := by
  rw [second, headerLine, headerLine_append]
  refine ⟨_, _, _, _, _, _, u.sizeText,
    quoted_of_plain (by decide) (forall_mem_of_all (by decide)) u.user_text,
    quoted_of_closing (by decide) (forall_mem_of_all (by decide)) u.filename_text,
    quoted_of_closing (by decide) (forall_mem_of_all (by decide)) u.md5_text, ?_, ?_⟩
  · rw [← List.cons_append]
    exact sized_of_plain (forall_mem_of_all (by decide)) u.sizeText_plain u.sizeText_fits
  · rw [trimSpace_eq u.user_text, trimSpace_eq u.filename_text, trimSpace_eq u.md5_text, sizeText,
      strtol_decimal u.size_long]
    rfl

theorem layout (h : u.headerLine.length < tempBufMaxLen) :
    Layout u.body u.boundary u.header u.afterType :=
  ⟨u.second, u.headerLine, contentTypeLine ++ (crlf ++ u.afterType), contentTypeLine,
    u.boundaryLine, u.boundary_fits, line_of_plain u.headerLine_plain, h, u.headerRead,
    line_of_plain (forall_mem_of_all (by decide))⟩

/-- The first boundary is the one after the content, whatever the content. -/
theorem ends (h : u.body.length < 2 ^ 31) :
    Ends u.boundary (u.afterType.drop 2) (contentLen u.afterType) (u.content ++ crlf)
      (u.boundary ++ bytes "--\r\n") := by
  have hdrop : u.afterType.drop 2 =
      u.content ++ crlf ++ (u.boundary ++ bytes "--\r\n") := rfl
  refine ⟨u.boundary_nonempty, ?_, ?_⟩
  · rw [hdrop]
    apply FirstHit.of_separated u.boundary_free (by decide)
    intro x hx hb
    rcases List.mem_pair.mp hx with rfl | rfl
    · exact (u.boundary_plain _ hb).1 rfl
    · exact (u.boundary_plain _ hb).2.1 rfl
  · have hlen : u.afterType.length =
        2 + (u.content.length + 2 + (u.boundary.length + 4)) := by
      simp only [afterType, List.length_append, List.length_cons, List.length_nil]
      rfl
    have hbody : u.afterType.length ≤ u.body.length := by
      simp only [body, multipart, afterType, List.length_append]
      omega
    have hint : contentLen u.afterType = (u.afterType.length : ℤ) - 2 :=
      Int.bmod_eq_of_le (by omega) (by omega)
    rw [hint, List.length_append]
    simp only [List.length_cons, List.length_nil]
    omega

theorem savedFile_eq (host : Host) (h : u.content.length ≤ host.writeMax) :
    savedFile host u.header (u.afterType.drop 2) (u.content ++ crlf) =
      ⟨u.filename, u.content.length, u.content⟩ := by
  have hlen : ((u.content ++ crlf).length : ℤ) - 2 = u.content.length := by
    rw [List.length_append]
    simp
  have hdrop : u.afterType.drop 2 =
      u.content ++ (crlf ++ (u.boundary ++ bytes "--\r\n")) := List.append_assoc _ _ _
  rw [savedFile, hlen, hdrop, Int.toNat_natCast, List.take_left, List.take_of_length_le h]
  rfl

theorem headerLine_length : u.headerLine.length =
    67 + u.user.length + u.filename.length + u.md5.length + u.sizeText.length := by
  have h₁ : (bytes "Content-Disposition: form-data; user=\"").length = 38 := by decide
  have h₂ : (bytes "\"; filename=\"").length = 13 := by decide
  have h₃ : (bytes "\"; md5=\"").length = 8 := by decide
  have h₄ : (bytes "\"; size=").length = 8 := by decide
  simp only [headerLine, CloudDisk.headerLine, List.length_append, h₁, h₂, h₃, h₄]
  omega

theorem body_length : u.body.length =
    2 * u.boundary.length + u.headerLine.length + u.content.length + 52 := by
  have h₁ : contentTypeLine.length = 38 := by decide
  have h₂ : (bytes "--\r\n").length = 4 := by decide
  simp only [body, multipart, List.length_append, h₁, h₂, List.length_cons, List.length_nil]
  omega

theorem not_unread {host : Host} (h : u.body.length < 2 ^ 31)
    (ha : host.allocates u.body.length = true) : ¬ Unread host u.body := by
  rintro (hno | hzero)
  · rw [ha] at hno
    cases hno
  · rw [Int.bmod_eq_of_le (by omega) (by omega)] at hzero
    have hpos : 0 < u.body.length := by
      have := List.length_pos_iff.mpr u.boundary_nonempty
      simp only [body, multipart, List.length_append]
      omega
    omega

end Upload

/-- An upload comes back whole exactly when the second line fits its buffer and the machine
does not refuse. -/
theorem upload_received_iff (host : Host) (u : Upload) (h : u.body.length < 2 ^ 31) :
    recvSaveFile host u.body = .ok u.received ↔
      u.headerLine.length < tempBufMaxLen ∧ host.allocates u.body.length = true ∧
        host.opens u.filename = true ∧ u.content.length ≤ host.writeMax := by
  rw [recvSaveFile_eq_ok_iff]
  constructor
  · intro hr
    generalize hout : u.received = out at hr
    cases hr with
    | saved boundary header rest content after hu hl hend hopen =>
      obtain ⟨second, contentText, third, contentType, hb, -, hc, hfit, -, -⟩ := hl
      obtain ⟨-, rfl⟩ := u.boundaryLine.unique hb
      have hline : Line u.second u.headerLine (contentTypeLine ++ (crlf ++ u.afterType)) :=
        line_of_plain u.headerLine_plain
      obtain ⟨rfl, -⟩ := hline.unique hc
      simp only [Upload.received, Received.mk.injEq, Option.some.injEq, savedFile,
        SavedFile.mk.injEq] at hout
      obtain ⟨-, hheader, hname, -, hwritten⟩ := hout
      refine ⟨hfit, ?_, ?_, ?_⟩
      · by_contra hno
        exact hu (.inl (by simpa using hno))
      · rw [hname]
        exact hopen
      · rw [hwritten]
        exact List.length_take_le _ _
    | _ => simp [Upload.received, Received.failed] at hout
  · rintro ⟨hfit, ha, ho, hw⟩
    rw [Upload.received, ← u.savedFile_eq host hw]
    exact .saved u.boundary u.header u.afterType (u.content ++ crlf) _ (u.not_unread h ha)
      (u.layout hfit) (u.ends h) ho

/-- A machine that grants every request. -/
def Host.roomy : Host := ⟨fun _ => true, fun _ => true, 2 ^ 31⟩

/-- A name that holds the text of a key, and a content of binary bytes and line ends. -/
def Upload.photo : Upload where
  boundary := bytes "------WebKitFormBoundary88asdgewtgewx"
  user := bytes "mike"
  filename := bytes "md5=.jpg"
  md5 := bytes "0cc1"
  size := 5
  content := [0, 13, 10, 255, 34]
  boundary_nonempty := by decide
  boundary_plain := forall_mem_of_all (by decide)
  boundary_fits := by decide
  user_text := .of_all (by decide) (by decide) (by decide) (by decide) (by decide)
  filename_text := .of_all (by decide) (by decide) (by decide) (by decide) (by decide)
  md5_text := .of_all (by decide) (by decide) (by decide) (by decide) (by decide)
  size_long := by decide
  boundary_free := by decide

theorem upload_received_photo :
    recvSaveFile .roomy Upload.photo.body = .ok Upload.photo.received := by
  have hline : Upload.photo.headerLine.length < tempBufMaxLen := by
    rw [Upload.headerLine_length]
    decide
  have hbody : Upload.photo.body.length < 2 ^ 31 := by
    rw [Upload.body_length, Upload.headerLine_length]
    decide
  exact (upload_received_iff .roomy .photo hbody).mpr ⟨hline, rfl, rfl, by decide⟩

/-- A second line that does not fit is written past the end of its buffer. -/
theorem longHeader_overflows (host : Host) (u : Upload) (h : u.body.length < 2 ^ 31)
    (ha : host.allocates u.body.length = true) (hlong : tempBufMaxLen ≤ u.headerLine.length) :
    recvSaveFile host u.body = .error .writeOutside := by
  have hb : copyLine tempBufMaxLen u.body = .ok (some (u.boundary, u.second)) :=
    copyLine_eq_some_iff.mpr ⟨u.boundaryLine, u.boundary_fits⟩
  have hline : Line u.second u.headerLine (contentTypeLine ++ (crlf ++ u.afterType)) :=
    line_of_plain u.headerLine_plain
  have hc : copyLine tempBufMaxLen u.second = .error .writeOutside := by
    rw [copyLine, strstr_eq_some_iff.mpr hline]
    show (copyText tempBufMaxLen u.headerLine >>= _) = _
    rw [copyText, if_neg (by omega)]
    rfl
  have hread : ¬ (host.allocates u.body.length = false ∨
      (u.body.length : ℤ).bmod (2 ^ 32) = 0) := u.not_unread h ha
  rw [recvSaveFile, if_neg hread, hb]
  show recvHeader host u.boundary u.second _ = _
  rw [recvHeader, hc]
  rfl

theorem fieldText_replicate {size n : ℕ} {c : UInt8} (hn : 0 < n) (hfit : n < size)
    (hc : c ≠ quote ∧ c ≠ 13 ∧ c ≠ 10 ∧ c ≠ 0) (hs : isspace c = false) :
    FieldText size (List.replicate n c) := by
  have hmem : ∀ d ∈ List.replicate n c, d = c := fun d hd => List.eq_of_mem_replicate hd
  refine ⟨?_, by simpa using hfit, ?_, ?_, ?_⟩
  · rw [Ne, List.replicate_eq_nil_iff]
    omega
  · intro d hd
    rw [hmem d hd]
    exact hc
  · intro d hd
    rw [hmem d (List.mem_of_mem_head? hd)]
    exact hs
  · intro d hd
    rw [hmem d (List.mem_of_mem_getLast? hd)]
    exact hs

/-- Fields that fit their buffers, and not `content_text`. -/
def Upload.longFields : Upload where
  boundary := bytes "------WebKitFormBoundary88asdgewtgewx"
  user := bytes "mike"
  filename := List.replicate 255 102
  md5 := List.replicate 255 99
  size := 0
  content := []
  boundary_nonempty := by decide
  boundary_plain := forall_mem_of_all (by decide)
  boundary_fits := by decide
  user_text := .of_all (by decide) (by decide) (by decide) (by decide) (by decide)
  filename_text := fieldText_replicate (by decide) (by decide) (by decide) (by decide)
  md5_text := fieldText_replicate (by decide) (by decide) (by decide) (by decide)
  size_long := by decide
  boundary_free := by decide

/-- The client sends an upload that fits, and the program writes past a buffer. -/
theorem longFields_breaks : Upload.longFields.body.length < 2 ^ 31 ∧
    recvSaveFile .roomy Upload.longFields.body = .error .writeOutside ∧
    recvSaveFile .roomy Upload.longFields.body ≠ .ok Upload.longFields.received := by
  have hline : Upload.longFields.headerLine.length = 582 := by
    rw [Upload.headerLine_length, Upload.longFields, List.length_replicate, List.length_replicate]
    rfl
  have hlen : Upload.longFields.body.length < 2 ^ 31 := by
    rw [Upload.body_length, hline]
    decide
  have hlong : tempBufMaxLen ≤ Upload.longFields.headerLine.length := by
    rw [hline]
    decide
  have hrun := longHeader_overflows .roomy .longFields hlen rfl hlong
  refine ⟨hlen, hrun, ?_⟩
  rw [hrun]
  intro h
  cases h

end CServer.CloudDisk
