import CServer.Dns.Messages
import Mathlib.Data.List.TakeWhile
import Mathlib.Tactic.Tauto

/-!
# The addresses of a response

The parser returns the address records of each response that it can follow.
-/
namespace CServer.Dns

variable {message chunk : List UInt8} {labels : List Label} {behind : Bool} {record : Record}
  {records : List Record} {ptr stop start n querys answers : ℕ} {byte byte' : UInt8} {list : List DnsItem}

/-! ## The message in the buffer -/

theorem getElem?_chunk (hmessage : message <+: chunk) (h : message[ptr]? = some byte) :
    chunk[ptr]? = some byte := by
  obtain ⟨hlt, rfl⟩ := List.getElem?_eq_some_iff.mp h
  exact List.prefix_iff_getElem?.mp hmessage ptr hlt

theorem take_chunk (hmessage : message <+: chunk) (h : ptr + n ≤ message.length) :
    (chunk.drop ptr).take n = (message.drop ptr).take n := by
  obtain ⟨rest, rfl⟩ := hmessage
  rw [List.drop_append_of_le_length (by omega), List.take_append_of_le_length]
  rw [List.length_drop]
  omega

theorem NumberAt.inChunk (hmessage : message <+: chunk) (h : NumberAt message ptr n) :
    NumberAt chunk ptr n := by
  obtain ⟨high, low, hhigh, hlow, hn⟩ := h
  exact ⟨high, low, getElem?_chunk hmessage hhigh, getElem?_chunk hmessage hlow, hn⟩

theorem byte_unique (h : message[ptr]? = some byte) (h' : message[ptr]? = some byte') : byte = byte' :=
  Option.some.inj (h.symm.trans h')

/-! ## Names -/

theorem isPointer_eq (flag : UInt8) : isPointer flag.toNat = decide (192 ≤ flag.toNat) := by
  have hall : ∀ n < 256, isPointer n = decide (192 ≤ n) := by decide +kernel
  exact hall flag.toNat flag.toNat_lt

/-- Only the root starts with a zero byte. -/
theorem WireName.root_of_zero (h : WireName message ptr labels stop) (hzero : message[ptr]? = some 0) :
    labels = [] := by
  cases h with
  | root hflag => rfl
  | pointer hhigh hpointer _ _ _ =>
    rw [byte_unique hhigh hzero] at hpointer
    exact absurd hpointer (by decide)
  | label hflag hsome _ _ => exact absurd (byte_unique hflag hzero) hsome

theorem dotted_cons (label : Label) (labels : List Label) :
    dotted (label :: labels) = if labels = [] then label else label ++ ['.'.toUInt8] ++ dotted labels := by
  cases labels with
  | nil => simp [dotted]
  | cons next labels => simp [dotted, List.intercalate_cons_cons]

/-- The parser finds a low name at its offset. Behind a label the name of the root is a zero byte. -/
theorem WireName.nameAt (hmessage : message <+: chunk) (h : WireName message ptr labels stop)
    (hlow : LowName message behind ptr) :
    NameAt chunk ptr (dotted labels) ∧
      (behind = true → message[ptr]? ≠ some 0 → labels ≠ []) := by
  induction h generalizing behind with
  | root hflag => exact ⟨.root (getElem?_chunk hmessage hflag), fun _ hne => absurd hflag hne⟩
  | @pointer ptr stop high low labels hhigh hpointer hlowByte earlier _ ih =>
    cases hlow with
    | root hflag =>
      rw [byte_unique hhigh hflag] at hpointer
      exact absurd hpointer (by decide)
    | @pointer _ _ low' hhigh' hlow' hroot target' =>
      obtain rfl := byte_unique hhigh hhigh'
      obtain rfl := byte_unique hlowByte hlow'
      have hoffset : offset 192 low = low.toNat := Nat.zero_add low.toNat
      rw [hoffset] at ih
      obtain ⟨hname, hnotRoot⟩ := ih target'
      refine ⟨.pointer (getElem?_chunk hmessage hhigh) (by decide)
        (getElem?_chunk hmessage hlowByte) hname, ?_⟩
      exact fun hbehind _ => hnotRoot hbehind (hroot hbehind)
    | label hflag _ hshort _ =>
      rw [byte_unique hhigh hflag] at hpointer
      omega
  | @label ptr stop flag labels hflag hsome hshort rest ih =>
    have hrest : LowName message true (ptr + 1 + flag.toNat) := by
      cases hlow with
      | root hflag' => exact absurd (byte_unique hflag hflag') hsome
      | pointer hhigh _ _ _ =>
        rw [byte_unique hflag hhigh] at hshort
        exact absurd hshort (by decide)
      | label hflag' _ _ rest' =>
        obtain rfl := byte_unique hflag hflag'
        exact rest'
    obtain ⟨hname, hnotRoot⟩ := ih hrest
    obtain ⟨next, hnext⟩ : ∃ next, message[ptr + 1 + flag.toNat]? = some next := by
      cases rest with
      | root hflag => exact ⟨_, hflag⟩
      | pointer hhigh => exact ⟨_, hhigh⟩
      | label hflag => exact ⟨_, hflag⟩
    obtain ⟨hlt, -⟩ := List.getElem?_eq_some_iff.mp hnext
    have htake := take_chunk hmessage (show ptr + 1 + flag.toNat ≤ message.length by omega)
    have hfound := NameAt.label (getElem?_chunk hmessage hflag) hsome
      (by rw [isPointer_eq]; simpa using (by omega : flag.toNat < 192)) (getElem?_chunk hmessage hnext) hname
    refine ⟨?_, fun _ _ => by simp⟩
    rw [htake] at hfound
    rw [dotted_cons]
    -- a point stands between the labels
    by_cases hzero : next = 0
    · subst hzero
      have hlast := rest.root_of_zero hnext
      rw [if_pos hlast]
      simpa [separator, hlast, dotted] using hfound
    · have hmore : labels ≠ [] := hnotRoot rfl fun hroot => hzero (byte_unique hnext hroot)
      rw [if_neg hmore]
      simpa [separator, hzero] using hfound

theorem WireName.shortName (hmessage : message <+: chunk) (h : WireName message ptr labels stop)
    (hlow : LowName message behind ptr) (hshort : (dotted labels).length < 128) :
    ShortName chunk ptr (dotted labels) :=
  ⟨(h.nameAt hmessage hlow).1, Nat.le_of_lt hshort⟩

/-- A name that starts with a pointer ends behind it. -/
theorem WireName.stop_of_pointer (h : WireName message ptr labels stop) (hhigh : message[ptr]? = some 192) :
    stop = ptr + 2 := by
  cases h with
  | root hflag => exact absurd (byte_unique hflag hhigh) (by decide)
  | pointer => rfl
  | label hflag _ hshort _ =>
    rw [byte_unique hflag hhigh] at hshort
    exact absurd hshort (by decide)

/-! ## Questions -/

theorem WireName.questionAt (hmessage : message <+: chunk) (h : WireName message ptr labels stop)
    (hplain : PlainName message ptr) : QuestionAt chunk ptr (stop + 4) := by
  induction h with
  | root hflag => exact .root (getElem?_chunk hmessage hflag)
  | pointer hhigh hpointer _ _ _ _ =>
    cases hplain with
    | root hflag =>
      rw [byte_unique hhigh hflag] at hpointer
      exact absurd hpointer (by decide)
    | label hflag _ hshort _ =>
      rw [byte_unique hhigh hflag] at hpointer
      omega
  | @label ptr stop flag labels hflag hsome hshort _ ih =>
    cases hplain with
    | root hflag' => exact absurd (byte_unique hflag hflag') hsome
    | label hflag' _ _ rest =>
      obtain rfl := byte_unique hflag hflag'
      refine .label (getElem?_chunk hmessage hflag) hsome ?_
      have hnext := ih rest
      rw [show ptr + (flag.toNat + 1) = ptr + 1 + flag.toNat by omega]
      exact hnext

theorem WireQuestions.questionsAt (hmessage : message <+: chunk) (h : WireQuestions message n ptr stop)
    (hplain : PlainQuestions message n ptr) : QuestionsAt chunk n ptr stop := by
  induction n generalizing ptr with
  | zero => exact h
  | succ n ih =>
    obtain ⟨labels, next, hname, -, hrest⟩ := h
    obtain ⟨hplainName, hplainRest⟩ := hplain
    exact ⟨next + 4, hname.questionAt hmessage hplainName, ih hrest (hplainRest labels next hname)⟩

/-! ## Records -/

/-- The item that the parser makes of a record. -/
theorem WireRecord.itemsOf_eq (hmessage : message <+: chunk) (h : WireRecord message ptr stop record)
    (htext : record.type = dnsHost → 0 ∉ dotted record.name) :
    itemsOf chunk (dotted record.name) record.type record.data.length (stop + 10) = addresses [record] := by
  by_cases hhost : record.type = dnsHost
  · have hlength := h.address hhost
    have hinside := h.inside
    have hdata := h.data
    rw [hlength] at hinside hdata
    have hnul : (dotted record.name).takeWhile (· ≠ 0) = dotted record.name := by
      rw [List.takeWhile_eq_self_iff]
      intro byte hbyte
      rw [decide_eq_true_eq]
      rintro rfl
      exact htext hhost hbyte
    rw [itemsOf, if_pos ⟨hhost, hlength⟩, take_chunk hmessage hinside, hdata, hnul]
    simp [addresses, hhost]
  · rw [itemsOf, if_neg (by simp [hhost])]
    simp [addresses, hhost]

theorem addresses_nil : addresses [] = [] := rfl

theorem addresses_cons (record : Record) (records : List Record) :
    addresses (record :: records) = addresses [record] ++ addresses records := by
  rw [addresses, addresses, addresses, ← List.map_append, ← List.filter_append]
  rfl

/-- The parser gets over a record and takes its address. -/
theorem WireRecord.returns (hmessage : message <+: chunk) (h : WireRecord message ptr stop record)
    (hpointer : message[ptr]? = some 192) (hlow : LowName message false ptr)
    (hcname : record.type = dnsCname → LowName message false (ptr + 12))
    (htext : record.type = dnsHost → 0 ∉ dotted record.name) (hlist : list.length < answers) :
    Returns (fun turns => parseAnswer chunk turns answers ptr list)
      (afterData record.type record.data.length (ptr + 12), list ++ addresses [record]) := by
  obtain rfl := h.name.stop_of_pointer hpointer
  have hitems := h.itemsOf_eq hmessage htext
  have hinside := h.inside
  obtain ⟨high, hhigh⟩ : ∃ high, message[ptr + 6]? = some high :=
    ⟨_, List.getElem?_eq_getElem (by omega)⟩
  obtain ⟨low, hlowByte⟩ : ∃ low, message[ptr + 6 + 1]? = some low :=
    ⟨_, List.getElem?_eq_getElem (by omega)⟩
  have httl : NumberAt message (ptr + 6) _ := ⟨high, low, hhigh, hlowByte, rfl⟩
  have hdata : DataAt chunk (dotted record.name) record.type record.data.length (ptr + 12) := by
    refine ⟨fun hc => ?_, fun hhost hfour => ⟨?_, .inl h.short⟩⟩
    · obtain ⟨labels, hshort, hname⟩ := h.cname hc
      exact ⟨_, hname.shortName hmessage (hcname hc) hshort⟩
    · have hle := hmessage.length_le
      omega
  rw [← hitems]
  exact parseAnswer_returns (h.name.shortName hmessage hlow h.short) (h.type.inChunk hmessage)
    (httl.inChunk hmessage) (h.length.inChunk hmessage) hdata hlist

theorem WireRecords.returns (hmessage : message <+: chunk) (h : WireRecords message ptr records)
    (hfollow : FollowableRecords message ptr records) (hlist : list.length + records.length ≤ answers) :
    Returns (fun turns => parseAnswers chunk turns answers records.length ptr list)
      (list ++ addresses records) := by
  induction records generalizing ptr list with
  | nil =>
    refine .of_eq fun turns => ?_
    rw [addresses_nil, List.append_nil]
    rfl
  | cons record records ih =>
    obtain ⟨stop, hrecord, hrest⟩ := h
    obtain ⟨⟨hpointer, hlow⟩, hcname, htext, hskip, hfollowRest⟩ := hfollow
    rw [List.length_cons] at hlist
    have hanswer : Returns (fun turns => parseAnswer chunk turns answers ptr list) _ :=
      hrecord.returns hmessage hpointer hlow hcname htext (by omega)
    have hstop := hrecord.name.stop_of_pointer hpointer
    rw [addresses_cons, ← List.append_assoc]
    have hcount : (addresses [record]).length ≤ 1 := by
      rw [addresses, List.length_map]
      exact (List.length_filter_le _ _)
    have hmore : (list ++ addresses [record]).length + records.length ≤ answers := by
      rw [List.length_append]
      omega
    refine hanswer.bind ?_
    -- the next record starts where the parser goes on, if there is one
    by_cases hlast : records = []
    · subst hlast
      refine .of_eq fun turns => ?_
      rw [addresses_nil, List.append_nil]
      rfl
    · have hafter : afterData record.type record.data.length (ptr + 12) =
          ptr + 12 + record.data.length := by
        rw [afterData]
        split
        · rfl
        · rename_i hneither
          have hempty : record.data = [] := by tauto
          rw [hempty]
          rfl
      rw [hstop, show ptr + 2 + 10 + record.data.length = ptr + 12 + record.data.length by omega] at hrest
      rw [hafter]
      exact ih hrest hfollowRest hmore

/-- The parser returns the addresses of a response that it can follow: each with its name, in order. -/
theorem returns_addresses (hresponse : Response message querys start records)
    (hfollow : Followable message querys start records) :
    Returns (dnsParseResponse (message ++ List.replicate (1024 - message.length) 0) true)
      (some (addresses records)) := by
  have hmessage := List.prefix_append message (List.replicate (1024 - message.length) 0)
  have hlist : Returns (fun turns => parseAnswers _ turns records.length records.length start []) _ :=
    hresponse.records.returns hmessage hfollow.records (Nat.le_of_eq (Nat.zero_add _))
  exact parseResponse_returns (hresponse.questions.inChunk hmessage) (hresponse.answers.inChunk hmessage)
    (hresponse.names.questionsAt hmessage hfollow.questions) hlist

/-- A question for `a`, which is an alias of itself with the address 1.2.3.4. -/
theorem returns_addresses_alias : Returns (dnsParseResponse
    ([0, 0, 0, 0, 0, 1, 0, 2, 0, 0, 0, 0, 1, 97, 0, 0, 1, 0, 1,
      192, 12, 0, 5, 0, 1, 0, 0, 0, 60, 0, 2, 192, 12,
      192, 12, 0, 1, 0, 1, 0, 0, 0, 60, 0, 4, 1, 2, 3, 4] ++ List.replicate 975 0) true)
    (some [⟨[97], inetNtop [1, 2, 3, 4]⟩]) := by
  let message : List UInt8 := [0, 0, 0, 0, 0, 1, 0, 2, 0, 0, 0, 0, 1, 97, 0, 0, 1, 0, 1,
    192, 12, 0, 5, 0, 1, 0, 0, 0, 60, 0, 2, 192, 12,
    192, 12, 0, 1, 0, 1, 0, 0, 0, 60, 0, 4, 1, 2, 3, 4]
  have hflag : message[12]? = some 1 := rfl
  have hname : WireName message 12 [[97]] 15 := .label hflag (by decide) (by decide) (.root rfl)
  have hlow : LowName message false 12 := .label hflag (by decide) (by decide) (.root rfl)
  have hresponse : Response message 1 19 [⟨[[97]], 5, [192, 12]⟩, ⟨[[97]], 1, [1, 2, 3, 4]⟩] := by
    refine ⟨by decide, ⟨0, 1, rfl, rfl, rfl⟩, ⟨0, 2, rfl, rfl, rfl⟩, ⟨_, _, hname, by decide, rfl⟩, ?_⟩
    refine ⟨21, ⟨.pointer rfl (by decide) rfl (by decide) hname, by decide, ⟨0, 5, rfl, rfl, rfl⟩,
      ⟨0, 2, rfl, rfl, rfl⟩, by decide, rfl, by decide, ?_⟩, ?_⟩
    · exact fun _ => ⟨[[97]], by decide, .pointer rfl (by decide) rfl (by decide) hname⟩
    · exact ⟨35, ⟨.pointer rfl (by decide) rfl (by decide) hname, by decide, ⟨0, 1, rfl, rfl, rfl⟩,
        ⟨0, 4, rfl, rfl, rfl⟩, by decide, rfl, by decide, fun hcname => absurd hcname (by decide)⟩, trivial⟩
  have hfollow : Followable message 1 19 [⟨[[97]], 5, [192, 12]⟩, ⟨[[97]], 1, [1, 2, 3, 4]⟩] := by
    refine ⟨⟨.label hflag (by decide) (by decide) (.root rfl), fun _ _ _ => trivial⟩, ?_⟩
    have hpointer : ∀ ptr, message[ptr]? = some 192 → message[ptr + 1]? = some 12 →
        LowName message false ptr := fun ptr hhigh hlowByte => .pointer hhigh hlowByte (by simp) hlow
    exact ⟨⟨rfl, hpointer 19 rfl rfl⟩, fun _ => hpointer 31 rfl rfl, by decide, by decide,
      ⟨rfl, hpointer 33 rfl rfl⟩, fun hcname => absurd hcname (by decide), by decide, by decide, trivial⟩
  exact returns_addresses hresponse hfollow

/-- A response without a question and with an address for `a`, whose name is not a pointer. The parser
takes the last bytes of the name for the type and returns nothing. -/
theorem plain_owner_lost : ¬∀ message querys start records, Response message querys start records →
    Returns (dnsParseResponse (message ++ List.replicate (1024 - message.length) 0) true)
      (some (addresses records)) := by
  intro hall
  let message : List UInt8 := [0, 0, 0, 0, 0, 0, 0, 1, 0, 0, 0, 0,
    1, 97, 0, 0, 1, 0, 1, 0, 0, 0, 60, 0, 4, 1, 2, 3, 4]
  have hresponse : Response message 0 12 [⟨[[97]], 1, [1, 2, 3, 4]⟩] := by
    refine ⟨by decide, ⟨0, 0, rfl, rfl, rfl⟩, ⟨0, 1, rfl, rfl, rfl⟩, rfl, 15, ?_, trivial⟩
    have hflag : message[12]? = some 1 := rfl
    exact ⟨.label hflag (by decide) (by decide) (.root rfl), by decide, ⟨0, 1, rfl, rfl, rfl⟩,
      ⟨0, 4, rfl, rfl, rfl⟩, by decide, rfl, by decide, fun hcname => absurd hcname (by decide)⟩
  have hright := hall message 0 12 _ hresponse
  have hwrong : Returns (dnsParseResponse (message ++ List.replicate (1024 - message.length) 0) true)
      (some []) := by
    refine ⟨2, fun turns hturns => ?_⟩
    obtain ⟨turns, rfl⟩ : ∃ before, turns = before + 2 := ⟨turns - 2, by omega⟩
    rfl
  exact absurd (hright.unique hwrong) (by simp [addresses, dnsHost])

end CServer.Dns
