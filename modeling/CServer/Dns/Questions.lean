import CServer.Dns.Addresses
import CServer.Foundation.Extents

/-!
# Questions

`dns_create_question` and `dns_build_request`, and the name of a question read back by
`dns_parse_name`. Here the memory into which they write is a list of bytes of any content, so that
what is never written can be told from what is.
-/
namespace CServer.Dns

open CServer.Extents

/-- The size of `struct dns_header`. -/
def headerSize : ℕ := 12

/-- `memcpy` into a buffer. -/
def writeAt (buffer : List UInt8) (pos : ℕ) (bytes : List UInt8) : Except Fault (List UInt8) :=
  if pos + bytes.length ≤ buffer.length then .ok (put buffer pos bytes) else .error .write

/-- The bytes in memory of the number that `htons` gives. -/
def htons (n : ℕ) : List UInt8 := [UInt8.ofNat (n / 256), UInt8.ofNat n]

/-- `struct dns_question`, with what `qname` points to. -/
structure DnsQuestion where
  length : ℕ
  qtype : List UInt8
  qclass : List UInt8
  qname : List UInt8

/-- `strtok` with a point as the delimiter: the token, and the string from the place it keeps. -/
def strtok (kept : List UInt8) : Option (List UInt8 × List UInt8) :=
  match kept.dropWhile (· = '.'.toUInt8) with
  | [] => none
  | byte :: rest =>
    some ((byte :: rest).takeWhile (· ≠ '.'.toUInt8),
      ((byte :: rest).dropWhile (· ≠ '.'.toUInt8)).drop 1)

/-- The loop of `dns_create_question`. `strncpy` writes the terminator of the token, too. -/
def writeLabels : ℕ → List UInt8 → ℕ → List UInt8 → Except Fault (List UInt8)
  | 0, _, _, _ => .error .turns
  | turns + 1, kept, pos, qname =>
    match strtok kept with
    | none => return qname
    | some (token, kept) => do
      let qname ← writeAt qname pos [UInt8.ofNat token.length]
      let qname ← writeAt qname (pos + 1) (token ++ [0])
      writeLabels turns kept (pos + 1 + token.length) qname

/-- `dns_create_question`, with the memory that `malloc` gives, if it gives any; `none` is the result
-2. `strdup` finds memory for the copy. -/
def dnsCreateQuestion (hostname : List UInt8) (fresh : Option (List UInt8)) (turns : ℕ) :
    Except Fault (Option DnsQuestion) :=
  match fresh with
  | none => return none
  | some qname => do
    let qname ← writeLabels turns hostname 0 qname
    return some {
      length := hostname.length + 2
      qtype := htons 1
      qclass := htons 1
      qname := qname }

/-- `dns_build_request`: what `request` holds after it, and the length. -/
def dnsBuildRequest (header : List UInt8) (question : DnsQuestion) (request : List UInt8) :
    Except Fault (List UInt8 × ℕ) := do
  let request ← writeAt request 0 header
  let qname ← copy question.qname 0 question.length
  let request ← writeAt request headerSize qname
  let request ← writeAt request (headerSize + question.length) question.qtype
  let request ← writeAt request (headerSize + question.length + 2) question.qclass
  return (request, question.length + 2 + 2 + headerSize)

/-- `dns_parse_name` with its buffer: the loop variables `ptr` and `pos`, the bytes of `out`, and
`*len`. -/
def dnsParseNameInto (chunk : List UInt8) :
    ℕ → ℕ → ℕ → List UInt8 → ℕ → Except Fault (List UInt8 × ℕ)
  | 0, _, _, _, _ => .error .turns
  | turns + 1, ptr, pos, out, len => do
    let flag ← read chunk ptr
    if flag = 0 then return (out, len)
    else if isPointer flag then do
      let n ← read chunk (ptr + 1)
      dnsParseNameInto chunk turns n len out len
    else do
      let label ← copy chunk (ptr + 1) flag
      let out ← writeAt out pos label
      let next ← read chunk (ptr + 1 + flag)
      if next ≠ 0 then do
        let out ← writeAt out (pos + flag) ['.'.toUInt8]
        dnsParseNameInto chunk turns (ptr + 1 + flag) (pos + flag + 1) out (len + flag + 1)
      else dnsParseNameInto chunk turns (ptr + 1 + flag) (pos + flag) out (len + flag)

/-! ## Writes -/

variable {front back bytes chunk out name : List UInt8} {pos ptr turns : ℕ}

theorem writeAt_append (hpos : pos = front.length) (hroom : bytes.length ≤ back.length) :
    writeAt (front ++ back) pos bytes = .ok (front ++ (bytes ++ back.drop bytes.length)) := by
  have hlength : (back.take bytes.length).length = bytes.length := List.length_take_of_le hroom
  have hin : pos + bytes.length ≤ (front ++ back).length := by
    rw [List.length_append]
    omega
  unfold writeAt
  rw [if_pos hin, hpos]
  nth_rewrite 1 [← List.take_append_drop bytes.length back]
  rw [put_append hlength]

/-! ## The name of a question -/

/-- A label of a host name. -/
structure HostLabel (label : Label) : Prop where
  nonempty : label ≠ []
  no_point : '.'.toUInt8 ∉ label
  visible : 0 ∉ label
  short : label.length ≤ 63

/-- The labels of a name, each behind its length. -/
def prefixed (labels : List Label) : List UInt8 :=
  labels.flatMap fun label => UInt8.ofNat label.length :: label

/-- A name as it stands in a message. -/
def encoded (labels : List Label) : List UInt8 := prefixed labels ++ [0]

variable {label : Label} {labels : List Label}

theorem prefixed_cons (label : Label) (labels : List Label) :
    prefixed (label :: labels) = UInt8.ofNat label.length :: (label ++ prefixed labels) := rfl

theorem length_dotted (hlabels : labels ≠ []) :
    (dotted labels).length + 1 = (prefixed labels).length := by
  induction labels with
  | nil => exact absurd rfl hlabels
  | cons label labels ih =>
    rw [dotted_cons, prefixed_cons]
    by_cases hlast : labels = []
    · subst hlast
      rw [if_pos rfl]
      simp [prefixed]
    · have hrest := ih hlast
      rw [if_neg hlast]
      simp only [List.length_append, List.length_cons, List.length_nil]
      omega

theorem strtok_append (h : HostLabel label) {tail : List UInt8}
    (htail : tail = [] ∨ ∃ rest, tail = '.'.toUInt8 :: rest) :
    strtok (label ++ tail) = some (label, tail.drop 1) := by
  obtain ⟨first, rest, hlabel⟩ := List.exists_cons_of_ne_nil h.nonempty
  have hfirst : first ≠ '.'.toUInt8 := by
    rintro rfl
    exact h.no_point (hlabel ▸ List.mem_cons_self)
  have hall : ∀ c ∈ label, decide (c ≠ '.'.toUInt8) = true := by
    intro c hc
    refine decide_eq_true ?_
    rintro rfl
    exact h.no_point hc
  have hstart : (label ++ tail).dropWhile (fun c => decide (c = '.'.toUInt8)) = label ++ tail := by
    rw [hlabel, List.cons_append, List.dropWhile_cons_of_neg (by simpa using hfirst)]
  have htake : (label ++ tail).takeWhile (fun c => decide (c ≠ '.'.toUInt8)) = label := by
    rw [List.takeWhile_append_of_pos hall]
    obtain rfl | ⟨rest, rfl⟩ := htail
    · simp
    · simp
  have hdrop : (label ++ tail).dropWhile (fun c => decide (c ≠ '.'.toUInt8)) = tail := by
    rw [List.dropWhile_append_of_pos hall]
    obtain rfl | ⟨rest, rfl⟩ := htail
    · rfl
    · simp
  unfold strtok
  rw [hstart]
  rw [hlabel, List.cons_append] at htake hdrop ⊢
  show some (List.takeWhile _ _, (List.dropWhile _ _).drop 1) = _
  rw [htake, hdrop]

/-- The tokens of a host name are its labels. -/
theorem strtok_dotted (h : HostLabel label) :
    strtok (dotted (label :: labels)) = some (label, dotted labels) := by
  rw [dotted_cons]
  by_cases hlast : labels = []
  · subst hlast
    rw [if_pos rfl]
    have hwhole := strtok_append h (Or.inl rfl)
    rw [List.append_nil] at hwhole
    exact hwhole
  · rw [if_neg hlast, List.append_assoc]
    exact strtok_append h (Or.inr ⟨_, rfl⟩)

theorem encoded_cons (label : Label) (labels : List Label) :
    encoded (label :: labels) = UInt8.ofNat label.length :: label ++ encoded labels := by
  unfold encoded
  rw [prefixed_cons, List.cons_append, List.cons_append, List.append_assoc]

/-- The turn for a label: its length, its bytes, and the zero byte that `strncpy` leaves behind. -/
theorem writeLabels_succ (h : HostLabel label) (hpos : pos = front.length)
    (hroom : label.length + 2 ≤ back.length) :
    writeLabels (turns + 1) (dotted (label :: labels)) pos (front ++ back) =
      writeLabels turns (dotted labels) (pos + 1 + label.length)
        (front ++ (UInt8.ofNat label.length :: label) ++ (0 :: back.drop (label.length + 2))) := by
  have hfirst : writeAt (front ++ back) pos [UInt8.ofNat label.length] =
      .ok (front ++ [UInt8.ofNat label.length] ++ back.drop 1) := by
    rw [writeAt_append hpos (by simpa using (by omega : 1 ≤ back.length)), List.append_assoc]
    rfl
  have hsecond : writeAt (front ++ [UInt8.ofNat label.length] ++ back.drop 1) (pos + 1)
      (label ++ [0]) = .ok (front ++ (UInt8.ofNat label.length :: label) ++
        (0 :: back.drop (label.length + 2))) := by
    have hfront : pos + 1 = (front ++ [UInt8.ofNat label.length]).length := by
      rw [List.length_append, hpos]
      rfl
    have hback : (label ++ [0]).length ≤ (back.drop 1).length := by
      rw [List.length_append, List.length_drop, List.length_singleton]
      omega
    rw [writeAt_append hfront hback, List.drop_drop, List.length_append, List.length_singleton,
      Nat.add_comm 1]
    simp
  rw [writeLabels, strtok_dotted h]
  show (writeAt _ _ _ >>= _) = _
  rw [hfirst, ok_bind, hsecond, ok_bind]

theorem writeLabels_nil (pos : ℕ) (qname : List UInt8) :
    Returns (fun turns => writeLabels turns (dotted []) pos qname) qname :=
  Returns.of_succ fun _ => rfl

/-- The loop writes the labels that are left, and a zero byte behind the last one. -/
theorem writeLabels_returns (hvalid : ∀ label ∈ labels, HostLabel label) (hlabels : labels ≠ [])
    (hpos : pos = front.length) (hroom : (encoded labels).length ≤ back.length) :
    Returns (fun turns => writeLabels turns (dotted labels) pos (front ++ back))
      (front ++ (encoded labels ++ back.drop (encoded labels).length)) := by
  induction labels generalizing pos front back with
  | nil => exact absurd rfl hlabels
  | cons label labels ih =>
    have hlabel := hvalid label List.mem_cons_self
    have hlength : (encoded (label :: labels)).length =
        1 + label.length + (encoded labels).length := by
      rw [encoded_cons, List.length_append, List.length_cons]
      omega
    have hzero : 1 ≤ (encoded labels).length := by
      unfold encoded
      rw [List.length_append, List.length_singleton]
      omega
    have hturn : ∀ turns,
        writeLabels (turns + 1) (dotted (label :: labels)) pos (front ++ back) = _ :=
      fun turns => writeLabels_succ hlabel hpos (by omega)
    by_cases hlast : labels = []
    · have hend : front ++ (UInt8.ofNat label.length :: label) ++
          (0 :: back.drop (label.length + 2)) =
          front ++ (encoded (label :: labels) ++ back.drop (encoded (label :: labels)).length) := by
        have hlength' : (encoded (label :: labels)).length = label.length + 2 := by
          rw [hlength, hlast]
          show 1 + label.length + 1 = _
          omega
        rw [hlength', encoded_cons, hlast]
        simp [encoded, prefixed]
      rw [← hend]
      rw [hlast] at hturn ⊢
      exact (writeLabels_nil _ _).succ hturn
    · have hfront : pos + 1 + label.length =
          (front ++ (UInt8.ofNat label.length :: label)).length := by
        rw [List.length_append, List.length_cons]
        omega
      have hback : (encoded labels).length ≤
          ((0 : UInt8) :: back.drop (label.length + 2)).length := by
        rw [List.length_cons, List.length_drop]
        omega
      have hrest := ih (fun l hl => hvalid l (List.mem_cons_of_mem _ hl)) hlast hfront hback
      have hdrop : ((0 : UInt8) :: back.drop (label.length + 2)).drop (encoded labels).length =
          back.drop (encoded (label :: labels)).length := by
        obtain ⟨n, hn⟩ := Nat.exists_eq_add_of_le' hzero
        rw [hlength, hn, List.drop_succ_cons, List.drop_drop]
        congr 1
        omega
      have hresult : front ++ (UInt8.ofNat label.length :: label) ++
          (encoded labels ++ back.drop (encoded (label :: labels)).length) =
          front ++ (encoded (label :: labels) ++ back.drop (encoded (label :: labels)).length) := by
        rw [encoded_cons, List.append_assoc, List.append_assoc]
      rw [hdrop, hresult] at hrest
      exact hrest.succ hturn

/-- The name of a question is encoded, whatever the memory held. -/
theorem dnsCreateQuestion_returns (hvalid : ∀ label ∈ labels, HostLabel label)
    (hlabels : labels ≠ []) {fresh : List UInt8}
    (hfresh : fresh.length = (dotted labels).length + 2) :
    Returns (fun turns => dnsCreateQuestion (dotted labels) (some fresh) turns) (some {
      length := (encoded labels).length
      qtype := htons 1
      qclass := htons 1
      qname := encoded labels }) := by
  have hlength : (encoded labels).length = (dotted labels).length + 2 := by
    unfold encoded
    rw [List.length_append, ← length_dotted hlabels, List.length_singleton]
  have hwritten : Returns (fun turns => writeLabels turns (dotted labels) 0 ([] ++ fresh))
      ([] ++ (encoded labels ++ fresh.drop (encoded labels).length)) :=
    writeLabels_returns hvalid hlabels rfl (by omega)
  rw [List.drop_eq_nil_of_le (by omega), List.nil_append, List.nil_append,
    List.append_nil] at hwritten
  refine hwritten.bind (Returns.of_eq fun turns => ?_)
  rw [hlength]
  rfl

/-! ## The request -/

/-- A request: the header, the name, its type and its class. -/
theorem dnsBuildRequest_eq {header request : List UInt8} (question : DnsQuestion)
    (hheader : header.length = headerSize) (hlength : question.qname.length = question.length)
    (hqtype : question.qtype.length = 2) (hqclass : question.qclass.length = 2)
    (hroom : headerSize + question.length + 4 ≤ request.length) :
    dnsBuildRequest header question request =
      .ok (header ++ question.qname ++ question.qtype ++ question.qclass ++
        request.drop (headerSize + question.length + 4), question.length + 2 + 2 + headerSize) := by
  have hfirst : writeAt request 0 header = .ok (header ++ request.drop headerSize) := by
    have hwrite : writeAt ([] ++ request) 0 header =
        .ok ([] ++ (header ++ request.drop header.length)) := writeAt_append rfl (by omega)
    rw [hheader] at hwrite
    exact hwrite
  have hcopy : copy question.qname 0 question.length = .ok question.qname := by
    rw [copy_eq_ok, List.drop_zero, ← hlength, List.take_length]
    exact ⟨by omega, rfl⟩
  have hname : writeAt (header ++ request.drop headerSize) headerSize question.qname =
      .ok (header ++ question.qname ++ request.drop (headerSize + question.length)) := by
    rw [writeAt_append hheader.symm (by rw [List.length_drop]; omega), List.drop_drop, hlength,
      List.append_assoc]
  have htype : writeAt (header ++ question.qname ++ request.drop (headerSize + question.length))
      (headerSize + question.length) question.qtype =
      .ok (header ++ question.qname ++ question.qtype ++
        request.drop (headerSize + question.length + 2)) := by
    rw [writeAt_append (by rw [List.length_append]; omega) (by rw [List.length_drop]; omega),
      List.drop_drop, hqtype, ← List.append_assoc]
  have hclass : writeAt (header ++ question.qname ++ question.qtype ++
        request.drop (headerSize + question.length + 2))
      (headerSize + question.length + 2) question.qclass =
      .ok (header ++ question.qname ++ question.qtype ++ question.qclass ++
        request.drop (headerSize + question.length + 4)) := by
    rw [writeAt_append (by rw [List.length_append, List.length_append]; omega)
      (by rw [List.length_drop]; omega), List.drop_drop, hqclass, ← List.append_assoc]
  unfold dnsBuildRequest
  rw [hfirst, ok_bind, hcopy, ok_bind, hname, ok_bind, htype, ok_bind, hclass, ok_bind]
  rfl

/-! ## The way back -/

theorem pointer_ne_zero {flag : ℕ} (h : isPointer flag = true) : flag ≠ 0 := by
  rintro rfl
  exact absurd h (by decide)

/-- The turn at a label. -/
theorem parseInto_label {flag next : UInt8} {len : ℕ} {label : List UInt8}
    (hflag : chunk[ptr]? = some flag) (hsome : flag ≠ 0) (hlabel : isPointer flag.toNat = false)
    (hnext : chunk[ptr + 1 + flag.toNat]? = some next)
    (hbytes : (chunk.drop (ptr + 1)).take flag.toNat = label) (hlen : len = front.length)
    (hroom : (label ++ separator next).length ≤ back.length) :
    dnsParseNameInto chunk (turns + 1) ptr len (front ++ back) len =
      dnsParseNameInto chunk turns (ptr + 1 + flag.toNat) (len + (label ++ separator next).length)
        (front ++ (label ++ separator next) ++ back.drop (label ++ separator next).length)
        (len + (label ++ separator next).length) := by
  obtain ⟨hinside, hlength⟩ := length_label hnext
  rw [hbytes] at hlength
  have hflag' : flag.toNat ≠ 0 := by simpa [← UInt8.toNat_inj] using hsome
  have hcopy := copy_eq_ok.mpr ⟨hinside, hbytes⟩
  rw [List.length_append] at hroom
  have hwrite : writeAt (front ++ back) len label =
      .ok (front ++ label ++ back.drop flag.toNat) := by
    rw [writeAt_append hlen (by omega), hlength, List.append_assoc]
  rw [dnsParseNameInto, read_of hflag, ok_bind, if_neg hflag', hlabel, if_neg Bool.false_ne_true,
    hcopy, ok_bind, hwrite, ok_bind, read_of hnext, ok_bind]
  by_cases hzero : next = 0
  · have hend : separator next = [] := if_pos hzero
    have hnone : ¬next.toNat ≠ 0 := by simp [hzero]
    rw [if_neg hnone, hend, List.append_nil, hlength]
  · have hpoint : separator next = ['.'.toUInt8] := if_neg hzero
    have hgoes : next.toNat ≠ 0 := by simpa [← UInt8.toNat_inj] using hzero
    rw [hpoint, List.length_singleton] at hroom
    have hdot : writeAt (front ++ label ++ back.drop flag.toNat) (len + flag.toNat)
        ['.'.toUInt8] = .ok (front ++ (label ++ ['.'.toUInt8]) ++ back.drop (flag.toNat + 1)) := by
      rw [writeAt_append (by rw [List.length_append]; omega)
        (by rw [List.length_drop, List.length_singleton]; omega), List.drop_drop,
        List.length_singleton, ← List.append_assoc, ← List.append_assoc]
    rw [if_pos hgoes, hdot, ok_bind, hpoint, List.length_append, hlength, List.length_singleton]
    rfl

/-- A name that fits is written behind what the buffer holds, and its length is added. -/
theorem NameAt.returnsInto (h : NameAt chunk ptr name) {len : ℕ} (hlen : len = front.length)
    (hroom : name.length ≤ back.length) :
    Returns (fun turns => dnsParseNameInto chunk turns ptr len (front ++ back) len)
      (front ++ (name ++ back.drop name.length), len + name.length) := by
  induction h generalizing front back len with
  | root hflag =>
    refine .of_succ fun turns => ?_
    rw [dnsParseNameInto, read_of hflag, ok_bind]
    rfl
  | pointer hflag hpointer hn _ ih =>
    refine (ih hlen hroom).succ fun turns => ?_
    rw [dnsParseNameInto, read_of hflag, ok_bind, if_neg (pointer_ne_zero hpointer), if_pos hpointer,
      read_of hn, ok_bind]
  | @label ptr flag next name hflag hsome hlabel hnext rest ih =>
    have hturn : ∀ turns, dnsParseNameInto chunk (turns + 1) ptr len (front ++ back) len = _ :=
      fun turns => parseInto_label hflag hsome hlabel hnext rfl hlen
        ((Nat.le_add_right _ name.length).trans (by rw [← List.length_append]; exact hroom))
    obtain ⟨piece, hpiece⟩ : ∃ piece,
        (chunk.drop (ptr + 1)).take flag.toNat ++ separator next = piece := ⟨_, rfl⟩
    rw [hpiece] at hroom hturn ⊢
    rw [List.length_append] at hroom
    have hfront : len + piece.length = (front ++ piece).length := by
      rw [List.length_append, hlen]
    have hback : name.length ≤ (back.drop piece.length).length := by
      rw [List.length_drop]
      omega
    have hresult : (front ++ piece ++ (name ++ (back.drop piece.length).drop name.length),
        len + piece.length + name.length) =
        (front ++ (piece ++ name ++ back.drop (piece ++ name).length),
          len + (piece ++ name).length) := by
      rw [List.drop_drop, List.length_append, List.append_assoc, List.append_assoc, Nat.add_assoc]
    have hrest := ih hfront hback
    rw [hresult] at hrest
    exact hrest.succ hturn

/-- What `dnsParseName` gives, a larger buffer of any content holds. -/
theorem returnsInto_of_parseName (h : dnsParseName chunk turns ptr [] = .ok name)
    (hroom : nameLength ≤ out.length) :
    Returns (fun turns => dnsParseNameInto chunk turns ptr 0 out 0)
      (name ++ out.drop name.length, name.length) := by
  obtain ⟨found, hname, hfound, hlength⟩ := nameAt_of_parseName h (Nat.zero_le _)
  rw [List.nil_append] at hfound hlength
  rw [hfound] at hname hlength
  have hreturns : Returns (fun turns => dnsParseNameInto chunk turns ptr 0 ([] ++ out) 0)
      ([] ++ (name ++ out.drop name.length), 0 + name.length) :=
    hname.returnsInto rfl (hlength.trans hroom)
  rw [List.nil_append, List.nil_append, Nat.zero_add] at hreturns
  exact hreturns

theorem HostLabel.toNat_length (h : HostLabel label) :
    (UInt8.ofNat label.length).toNat = label.length := by
  have hshort := h.short
  rw [UInt8.toNat_ofNat']
  omega

theorem HostLabel.length_ne_zero (h : HostLabel label) : UInt8.ofNat label.length ≠ 0 := by
  have hpos := List.length_pos_iff.2 h.nonempty
  intro hzero
  have hlength := h.toNat_length
  rw [hzero] at hlength
  exact hpos.ne hlength

/-- A name starts with a zero byte if and only if it has no label. -/
theorem exists_first (hvalid : ∀ label ∈ labels, HostLabel label) (back : List UInt8) :
    ∃ next rest, encoded labels ++ back = next :: rest ∧ (next = 0 ↔ labels = []) := by
  cases labels with
  | nil => exact ⟨0, back, rfl, iff_of_true rfl rfl⟩
  | cons label labels =>
    have hlabel := hvalid label List.mem_cons_self
    exact ⟨UInt8.ofNat label.length, _, rfl,
      iff_of_false hlabel.length_ne_zero (List.cons_ne_nil _ _)⟩

/-- The name of a question is found where it has been written. -/
theorem nameAt_encoded (hvalid : ∀ label ∈ labels, HostLabel label) (hptr : ptr = front.length) :
    NameAt (front ++ (encoded labels ++ back)) ptr (dotted labels) := by
  induction labels generalizing front ptr with
  | nil =>
    refine .root ?_
    rw [hptr, List.getElem?_append_right (le_refl _), Nat.sub_self]
    rfl
  | cons label labels ih =>
    have hlabel := hvalid label List.mem_cons_self
    have hshort := hlabel.short
    have hflag := hlabel.toNat_length
    have hrest := fun l hl => hvalid l (List.mem_cons_of_mem label hl)
    have hchunk : front ++ (encoded (label :: labels) ++ back) =
        front ++ (UInt8.ofNat label.length :: label) ++ (encoded labels ++ back) := by
      rw [encoded_cons, List.append_assoc, List.append_assoc]
    have hend : ptr + 1 + label.length = (front ++ (UInt8.ofNat label.length :: label)).length := by
      rw [List.length_append, List.length_cons]
      omega
    obtain ⟨next, rest, hfirst, hzero⟩ := exists_first hrest back
    have hname := ih hrest hend
    rw [hchunk]
    have hread : (front ++ (UInt8.ofNat label.length :: label) ++ (encoded labels ++ back))[ptr]? =
        some (UInt8.ofNat label.length) := by
      rw [List.append_assoc, List.getElem?_append_right hptr.ge, hptr, Nat.sub_self]
      rfl
    have hnext : (front ++ (UInt8.ofNat label.length :: label) ++ (encoded labels ++ back))[ptr + 1 +
        label.length]? = some next := by
      rw [List.getElem?_append_right hend.ge, hend, Nat.sub_self, hfirst]
      rfl
    have hbytes : ((front ++ (UInt8.ofNat label.length :: label) ++ (encoded labels ++ back)).drop
        (ptr + 1)).take label.length = label := by
      have hfront : (front ++ [UInt8.ofNat label.length]).length = ptr + 1 := by
        rw [List.length_append, hptr]
        rfl
      rw [List.append_cons, List.append_assoc _ label, ← hfront, List.drop_left, List.take_left]
    have hwhole := NameAt.label hread hlabel.length_ne_zero
      (by rw [isPointer_eq, hflag]; exact decide_eq_false (by omega)) (by rw [hflag]; exact hnext)
      (by rw [hflag]; exact hname)
    rw [hflag, hbytes] at hwhole
    have hdotted : label ++ separator next ++ dotted labels = dotted (label :: labels) := by
      rw [dotted_cons]
      by_cases hlast : labels = []
      · have hnone : separator next = [] := if_pos (hzero.2 hlast)
        rw [if_pos hlast, hnone, hlast]
        exact (List.append_nil _).trans (List.append_nil _)
      · have hpoint : separator next = ['.'.toUInt8] := if_neg fun h => hlast (hzero.1 h)
        rw [if_neg hlast, hpoint]
    rw [hdotted] at hwhole
    exact hwhole

/-- The request for a host name has the encoded name, its type and its class behind the header, and
`dns_parse_name` gives the host name and its length back. -/
theorem question_roundtrip (labels : List Label) (fresh header request : List UInt8)
    (hlabels : labels ≠ []) (hvalid : ∀ label ∈ labels, HostLabel label)
    (hfresh : fresh.length = (dotted labels).length + 2) (hheader : header.length = headerSize)
    (hrequest : request.length = 1024)
    (htotal : headerSize + ((dotted labels).length + 2) + 4 < 1024) :
    ∃ question built,
      Returns (fun turns => dnsCreateQuestion (dotted labels) (some fresh) turns) (some question) ∧
      question.qname = encoded labels ∧ question.length = (encoded labels).length ∧
      dnsBuildRequest header question request = .ok (built, headerSize + question.length + 4) ∧
      (built.drop headerSize).take (question.length + 4) = encoded labels ++ htons 1 ++ htons 1 ∧
      ∀ out : List UInt8, (dotted labels).length ≤ out.length →
        Returns (fun turns => dnsParseNameInto built turns headerSize 0 out 0)
          (dotted labels ++ out.drop (dotted labels).length, (dotted labels).length) := by
  have hlength : (encoded labels).length = (dotted labels).length + 2 := by
    unfold encoded
    rw [List.length_append, ← length_dotted hlabels, List.length_singleton]
  have hbuilt := dnsBuildRequest_eq
    (⟨(encoded labels).length, htons 1, htons 1, encoded labels⟩ : DnsQuestion) hheader rfl rfl rfl
    (show headerSize + (encoded labels).length + 4 ≤ request.length by omega)
  have hsize : (encoded labels).length + 2 + 2 + headerSize =
      headerSize + (encoded labels).length + 4 := by
    omega
  obtain ⟨tail, htail⟩ : ∃ tail, request.drop (headerSize + (encoded labels).length + 4) = tail :=
    ⟨_, rfl⟩
  rw [hsize] at hbuilt
  have hrest : header ++ encoded labels ++ htons 1 ++ htons 1 ++ tail =
      header ++ (encoded labels ++ htons 1 ++ htons 1 ++ tail) := by
    rw [List.append_assoc header, List.append_assoc header, List.append_assoc header]
  rw [htail] at hbuilt
  replace hbuilt : dnsBuildRequest header
      ⟨(encoded labels).length, htons 1, htons 1, encoded labels⟩ request = _ :=
    hbuilt.trans (congrArg (fun built => Except.ok (built, _)) hrest)
  refine ⟨_, _, dnsCreateQuestion_returns hvalid hlabels hfresh, rfl, rfl, hbuilt, ?_, fun out hout => ?_⟩
  · have hfields : (encoded labels).length + 4 = (encoded labels ++ htons 1 ++ htons 1).length := by
      rw [List.length_append, List.length_append]
      rfl
    rw [List.drop_left' hheader, hfields, List.take_left]
  · have hname : NameAt (header ++ (encoded labels ++ (htons 1 ++ htons 1 ++ tail))) headerSize _ :=
      nameAt_encoded hvalid hheader.symm
    have hreturns : Returns (fun turns => dnsParseNameInto
        (header ++ (encoded labels ++ (htons 1 ++ htons 1 ++ tail))) turns headerSize 0 ([] ++ out) 0)
        ([] ++ (dotted labels ++ out.drop (dotted labels).length), 0 + (dotted labels).length) :=
      hname.returnsInto rfl hout
    rw [List.nil_append, List.nil_append, Nat.zero_add, ← List.append_assoc (encoded labels),
      ← List.append_assoc (encoded labels)] at hreturns
    exact hreturns

theorem question_roundtrip_ab : ∃ question built,
    Returns (fun turns => dnsCreateQuestion (dotted [[97], [98]]) (some (List.replicate 5 7)) turns)
      (some question) ∧
    question.qname = encoded [[97], [98]] ∧
    question.length = (encoded [[97], [98]]).length ∧
    dnsBuildRequest (List.replicate 12 0) question (List.replicate 1024 0) =
      .ok (built, headerSize + question.length + 4) ∧
    (built.drop headerSize).take (question.length + 4) =
      encoded [[97], [98]] ++ htons 1 ++ htons 1 ∧
    ∀ out : List UInt8, (dotted [[97], [98]]).length ≤ out.length →
      Returns (fun turns => dnsParseNameInto built turns headerSize 0 out 0)
        (dotted [[97], [98]] ++ out.drop (dotted [[97], [98]]).length,
          (dotted [[97], [98]]).length) := by
  have hvalid : ∀ label ∈ ([[97], [98]] : List Label), HostLabel label := by
    intro label hlabel
    obtain rfl | rfl := List.mem_pair.1 hlabel
    · exact ⟨by decide, by decide, by decide, by decide⟩
    · exact ⟨by decide, by decide, by decide, by decide⟩
  exact question_roundtrip [[97], [98]] (List.replicate 5 7) (List.replicate 12 0)
    (List.replicate 1024 0) (by decide) hvalid (by decide) (by decide) List.length_replicate
    (by decide)

end CServer.Dns
