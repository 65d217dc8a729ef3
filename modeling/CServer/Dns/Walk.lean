import CServer.Dns.Names

/-!
# When the parser returns

The parser has no check of its own: it returns exactly if its way through the buffer stays inside, each
name on the way ends and fits into the array, and the text of an address record has an end.
-/
namespace CServer.Dns

variable {chunk aname : List UInt8} {ptr stop turns answers querys type datalen : ℕ} {list : List DnsItem}

/-! ## The condition -/

/-- The bytes of a number are in the buffer. -/
def NumberAt (chunk : List UInt8) (ptr n : ℕ) : Prop :=
  ∃ high low, chunk[ptr]? = some high ∧ chunk[ptr + 1]? = some low ∧ n = 256 * high.toNat + low.toNat

/-- The question at an offset ends at another one: each byte that is taken for a length is in the
buffer. -/
inductive QuestionAt (chunk : List UInt8) : ℕ → ℕ → Prop where
  | root {ptr : ℕ} (hflag : chunk[ptr]? = some 0) : QuestionAt chunk ptr (ptr + 1 + 4)
  | label {ptr stop : ℕ} {flag : UInt8} (hflag : chunk[ptr]? = some flag) (hsome : flag ≠ 0)
      (rest : QuestionAt chunk (ptr + (flag.toNat + 1)) stop) : QuestionAt chunk ptr stop

def QuestionsAt (chunk : List UInt8) : ℕ → ℕ → ℕ → Prop
  | 0, ptr, stop => ptr = stop
  | querys + 1, ptr, stop => ∃ next, QuestionAt chunk ptr next ∧ QuestionsAt chunk querys next stop

/-- The name at an offset ends and fits into the array. -/
def ShortName (chunk : List UInt8) (ptr : ℕ) (name : List UInt8) : Prop :=
  NameAt chunk ptr name ∧ name.length ≤ nameLength

/-- The data that is read for a type is there: a name, or an address with a text that has an end. -/
def DataAt (chunk aname : List UInt8) (type datalen ptr : ℕ) : Prop :=
  (type = dnsCname → ∃ cname, ShortName chunk ptr cname) ∧
    (type = dnsHost → datalen = 4 → ptr + 4 ≤ chunk.length ∧ (aname.length < nameLength ∨ 0 ∈ aname))

/-- Where the parser goes on behind the fixed part of an answer. -/
def afterData (type datalen ptr : ℕ) : ℕ :=
  if type = dnsCname ∨ type = dnsHost then ptr + datalen else ptr

/-- The parser gets over so many answers. -/
def AnswersAt (chunk : List UInt8) : ℕ → ℕ → Prop
  | 0, _ => True
  | n + 1, ptr => ∃ aname type ttl datalen, ShortName chunk ptr aname ∧
      NumberAt chunk (ptr + 2) type ∧ NumberAt chunk (ptr + 6) ttl ∧ NumberAt chunk (ptr + 10) datalen ∧
      DataAt chunk aname type datalen (ptr + 12) ∧ AnswersAt chunk n (afterData type datalen (ptr + 12))

/-- The parser gets over the buffer. -/
def Walkable (chunk : List UInt8) (allocated : Bool) : Prop :=
  ∃ querys answers stop, NumberAt chunk 4 querys ∧ NumberAt chunk 6 answers ∧
    QuestionsAt chunk querys 12 stop ∧ (allocated = true → AnswersAt chunk answers stop)

/-! ## The parts of a response -/

theorem ntohs_eq_ok {n : ℕ} : ntohs chunk ptr = .ok n ↔ NumberAt chunk ptr n := by
  constructor
  · intro h
    obtain ⟨high, hhigh, h⟩ := bind_eq_ok h
    obtain ⟨low, hlow, h⟩ := bind_eq_ok h
    obtain ⟨high, hhighByte, rfl⟩ := read_eq_ok.mp hhigh
    obtain ⟨low, hlowByte, rfl⟩ := read_eq_ok.mp hlow
    exact ⟨high, low, hhighByte, hlowByte, (Except.ok.inj h).symm⟩
  · rintro ⟨high, low, hhigh, hlow, rfl⟩
    rw [ntohs, read_of hhigh, ok_bind, read_of hlow, ok_bind]
    rfl

theorem QuestionAt.returns (h : QuestionAt chunk ptr stop) :
    Returns (fun turns => skipQuestion chunk turns ptr) stop := by
  induction h with
  | root hflag =>
    refine .of_succ fun turns => ?_
    rw [skipQuestion, read_of hflag, ok_bind]
    rfl
  | label hflag hsome _ ih =>
    refine ih.succ fun turns => ?_
    rw [skipQuestion, read_of hflag, ok_bind, if_neg (by simpa [← UInt8.toNat_inj] using hsome)]

theorem questionAt_of_skipQuestion (h : skipQuestion chunk turns ptr = .ok stop) :
    QuestionAt chunk ptr stop := by
  induction turns generalizing ptr with
  | zero => exact absurd h (by simp [skipQuestion])
  | succ turns ih =>
    rw [skipQuestion] at h
    obtain ⟨flag, hread, h⟩ := bind_eq_ok h
    obtain ⟨flag, hflag, rfl⟩ := read_eq_ok.mp hread
    split at h
    · rename_i hzero
      have hroot : flag = 0 := by simpa [← UInt8.toNat_inj] using hzero
      subst hroot
      cases Except.ok.inj h
      exact .root hflag
    · rename_i hsome
      exact .label hflag (by simpa [← UInt8.toNat_inj] using hsome) (ih h)

theorem QuestionsAt.returns (h : QuestionsAt chunk querys ptr stop) :
    Returns (fun turns => skipQuestions chunk turns querys ptr) stop := by
  induction querys generalizing ptr with
  | zero =>
    cases h
    exact .of_eq fun turns => rfl
  | succ querys ih =>
    obtain ⟨next, hquestion, hrest⟩ := h
    exact hquestion.returns.bind (ih hrest)

theorem questionsAt_of_skipQuestions (h : skipQuestions chunk turns querys ptr = .ok stop) :
    QuestionsAt chunk querys ptr stop := by
  induction querys generalizing ptr with
  | zero => exact Except.ok.inj h
  | succ querys ih =>
    obtain ⟨next, hquestion, hrest⟩ := bind_eq_ok h
    exact ⟨next, questionAt_of_skipQuestion hquestion, ih hrest⟩

theorem ShortName.returns {name : List UInt8} (h : ShortName chunk ptr name) :
    Returns (fun turns => dnsParseName chunk turns ptr []) name := by
  have hname : Returns (fun turns => dnsParseName chunk turns ptr []) ([] ++ name) := h.1.returns h.2
  exact hname

theorem shortName_of_parseName {name : List UInt8} (h : dnsParseName chunk turns ptr [] = .ok name) :
    ShortName chunk ptr name := by
  obtain ⟨name, hname, rfl, hlength⟩ := nameAt_of_parseName h (Nat.zero_le _)
  exact ⟨hname, hlength⟩

theorem text_eq_ok {domain : List UInt8} : text aname = .ok domain ↔
    (aname.length < nameLength ∨ 0 ∈ aname) ∧ aname.takeWhile (· ≠ 0) = domain := by
  rw [text]
  split
  · simp_all
  · rename_i hnot
    simp [hnot]

/-- The item for an answer, if there is one. -/
def itemsOf (chunk aname : List UInt8) (type datalen ptr : ℕ) : List DnsItem :=
  if type = dnsHost ∧ datalen = 4 then
    [⟨aname.takeWhile (· ≠ 0), inetNtop ((chunk.drop ptr).take 4)⟩]
  else []

theorem itemsOf_length (chunk aname : List UInt8) (type datalen ptr : ℕ) :
    (itemsOf chunk aname type datalen ptr).length ≤ 1 := by
  rw [itemsOf]
  split <;> simp

theorem DataAt.returns (h : DataAt chunk aname type datalen ptr) (hlist : list.length < answers) :
    Returns (fun turns => parseData chunk turns answers aname type datalen ptr list)
      (afterData type datalen ptr, list ++ itemsOf chunk aname type datalen ptr) := by
  by_cases hcname : type = dnsCname
  · obtain ⟨cname, hname⟩ := h.1 hcname
    have hhost : ¬type = dnsHost := by
      rw [hcname]
      decide
    have hafter : Returns (fun turns => dnsParseName chunk turns ptr [] >>= fun _ =>
        (pure (ptr + datalen, list) : Except Fault _)) (ptr + datalen, list) :=
      hname.returns.bind (.of_eq fun turns => rfl)
    rw [afterData, if_pos (.inl hcname), itemsOf, if_neg (by simp [hhost]), List.append_nil]
    refine hafter.congr fun turns => ?_
    rw [parseData, if_pos hcname]
  · by_cases hhost : type = dnsHost
    · rw [afterData, if_pos (.inr hhost)]
      refine .of_eq fun turns => ?_
      rw [parseData, if_neg hcname, if_pos hhost]
      by_cases hlength : datalen = 4
      · obtain ⟨hinside, htext⟩ := h.2 hhost hlength
        subst hlength
        rw [if_pos rfl, copy_eq_ok.mpr ⟨hinside, rfl⟩, ok_bind, text_eq_ok.mpr ⟨htext, rfl⟩, ok_bind, push,
          if_pos hlist, ok_bind, itemsOf, if_pos ⟨hhost, rfl⟩]
        rfl
      · rw [if_neg hlength, itemsOf, if_neg (by simp [hlength]), List.append_nil]
        rfl
    · rw [afterData, if_neg (by simp [hcname, hhost]), itemsOf, if_neg (by simp [hhost]), List.append_nil]
      refine .of_eq fun turns => ?_
      rw [parseData, if_neg hcname, if_neg hhost]
      rfl

theorem dataAt_of_parseData {after : ℕ × List DnsItem}
    (h : parseData chunk turns answers aname type datalen ptr list = .ok after) :
    DataAt chunk aname type datalen ptr ∧ after.1 = afterData type datalen ptr := by
  rw [parseData] at h
  split at h
  · rename_i hcname
    obtain ⟨cname, hname, h⟩ := bind_eq_ok h
    cases Except.ok.inj h
    refine ⟨⟨fun _ => ⟨cname, shortName_of_parseName hname⟩, fun hhost => ?_⟩, ?_⟩
    · exact absurd (hcname.symm.trans hhost) (by decide)
    · rw [afterData, if_pos (.inl hcname)]
  · rename_i hcname
    split at h
    · rename_i hhost
      rw [afterData, if_pos (.inr hhost)]
      split at h
      · rename_i hlength
        obtain ⟨netip, hcopy, h⟩ := bind_eq_ok h
        obtain ⟨domain, htext, h⟩ := bind_eq_ok h
        obtain ⟨list', -, h⟩ := bind_eq_ok h
        cases Except.ok.inj h
        subst hlength
        refine ⟨⟨fun hc => absurd hc hcname, fun _ _ => ⟨?_, ?_⟩⟩, rfl⟩
        · exact (copy_eq_ok.mp hcopy).1
        · exact (text_eq_ok.mp htext).1
      · rename_i hlength
        cases Except.ok.inj h
        exact ⟨⟨fun hc => absurd hc hcname, fun _ hl => absurd hl hlength⟩, rfl⟩
    · rename_i hhost
      cases Except.ok.inj h
      refine ⟨⟨fun hc => absurd hc hcname, fun hh => absurd hh hhost⟩, ?_⟩
      rw [afterData, if_neg (by simp [hcname, hhost])]

/-! ## The answers -/

/-- The parser gets over an answer. -/
theorem parseAnswer_returns {ttl : ℕ} (hname : ShortName chunk ptr aname)
    (htype : NumberAt chunk (ptr + 2) type) (httl : NumberAt chunk (ptr + 6) ttl)
    (hlength : NumberAt chunk (ptr + 10) datalen) (hdata : DataAt chunk aname type datalen (ptr + 12))
    (hlist : list.length < answers) :
    Returns (fun turns => parseAnswer chunk turns answers ptr list)
      (afterData type datalen (ptr + 12), list ++ itemsOf chunk aname type datalen (ptr + 12)) := by
  refine hname.returns.bind ((hdata.returns hlist).congr fun turns => ?_)
  rw [ntohs_eq_ok.mpr htype, ok_bind, ntohs_eq_ok.mpr httl, ok_bind, ntohs_eq_ok.mpr hlength, ok_bind]

theorem AnswersAt.returns {n : ℕ} (h : AnswersAt chunk n ptr) (hlist : list.length + n ≤ answers) :
    ∃ list', Returns (fun turns => parseAnswers chunk turns answers n ptr list) list' := by
  induction n generalizing ptr list with
  | zero => exact ⟨list, .of_eq fun turns => rfl⟩
  | succ n ih =>
    obtain ⟨aname, type, ttl, datalen, hname, htype, httl, hlength, hdata, hrest⟩ := h
    have hanswer : Returns (fun turns => parseAnswer chunk turns answers ptr list) _ :=
      parseAnswer_returns hname htype httl hlength hdata (by omega)
    have hcount := itemsOf_length chunk aname type datalen (ptr + 12)
    have hmore : (list ++ itemsOf chunk aname type datalen (ptr + 12)).length + n ≤ answers := by
      rw [List.length_append]
      omega
    obtain ⟨list', hlist'⟩ := ih hrest hmore
    exact ⟨list', hanswer.bind hlist'⟩

theorem answersAt_of_parseAnswers {n : ℕ} {list' : List DnsItem}
    (h : parseAnswers chunk turns answers n ptr list = .ok list') : AnswersAt chunk n ptr := by
  induction n generalizing ptr list with
  | zero => trivial
  | succ n ih =>
    obtain ⟨after, hanswer, hrest⟩ := bind_eq_ok h
    obtain ⟨aname, hname, hanswer⟩ := bind_eq_ok hanswer
    obtain ⟨type, htype, hanswer⟩ := bind_eq_ok hanswer
    obtain ⟨ttl, httl, hanswer⟩ := bind_eq_ok hanswer
    obtain ⟨datalen, hlength, hanswer⟩ := bind_eq_ok hanswer
    obtain ⟨hdata, hafter⟩ := dataAt_of_parseData hanswer
    refine ⟨aname, type, ttl, datalen, shortName_of_parseName hname, ntohs_eq_ok.mp htype,
      ntohs_eq_ok.mp httl, ntohs_eq_ok.mp hlength, hdata, ?_⟩
    rw [← hafter]
    exact ih hrest

/-- The parser returns, behind the header and the questions, what it makes of the answers. -/
theorem parseResponse_returns (hquerys : NumberAt chunk 4 querys) (hanswers : NumberAt chunk 6 answers)
    (hstop : QuestionsAt chunk querys 12 stop)
    (hlist : Returns (fun turns => parseAnswers chunk turns answers answers stop []) list) :
    Returns (dnsParseResponse chunk true) (some list) := by
  have hsome : Returns (fun turns => parseAnswers chunk turns answers answers stop [] >>= fun list =>
      (pure (some list) : Except Fault _)) (some list) := hlist.bind (.of_eq fun turns => rfl)
  have hall : Returns (fun turns => skipQuestions chunk turns querys 12 >>= fun ptr =>
      parseAnswers chunk turns answers answers ptr [] >>= fun list =>
        (pure (some list) : Except Fault _)) (some list) := hstop.returns.bind hsome
  refine hall.congr fun turns => ?_
  rw [dnsParseResponse, ntohs_eq_ok.mpr hquerys, ok_bind, ntohs_eq_ok.mpr hanswers, ok_bind]
  rfl

/-- A buffer with one answer; its name is a pointer to itself. -/
def selfPointer : List UInt8 := [0, 0, 0, 0, 0, 0, 0, 1, 0, 0, 0, 0, 192, 12] ++ List.replicate 1010 0

end CServer.Dns
