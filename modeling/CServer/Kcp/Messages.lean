import CServer.Kcp.Directions
import Mathlib.Data.List.Chain

/-!
# Messages and their fragments

The fragments of a message are numbered downwards, and the last has the number 0. That is all that
`ikcp_recv` knows of where a message ends. `ikcp_send` puts a message behind those that wait, in a
stream behind the bytes that wait; `ikcp_recv` hands out a message only when all of it is there.
-/
namespace CServer.Kcp

open Delivery

/-- The complete messages in the pieces, and what is left at the end. -/
def cut (front : Bytes) : List Piece → List Bytes × Bytes
  | [] => ([], front)
  | piece :: rest =>
    if piece.1 = 0 then ((front ++ piece.2) :: (cut [] rest).1, (cut [] rest).2)
    else cut (front ++ piece.2) rest

def messages (pieces : List Piece) : List Bytes := (cut [] pieces).1

def bytes (pieces : List Piece) : Bytes := pieces.flatMap Prod.snd

/-- The last message is complete. -/
def Closed (pieces : List Piece) : Prop := ∀ piece ∈ pieces.getLast?, piece.1 = 0

/-- The numbers go down to 0. -/
def Counted (pieces : List Piece) : Prop :=
  (pieces.map Prod.fst).IsChain fun n m => n = 0 ∨ n = m + 1

variable {front : Bytes} {pieces more : List Piece} {piece : Piece}

theorem cut_nil (front : Bytes) : cut front [] = ([], front) :=
  rfl

theorem cut_cons (front : Bytes) (piece : Piece) (rest : List Piece) : cut front (piece :: rest) =
    if piece.1 = 0 then ((front ++ piece.2) :: (cut [] rest).1, (cut [] rest).2)
    else cut (front ++ piece.2) rest :=
  rfl

theorem cut_append (front : Bytes) (pieces more : List Piece) :
    cut front (pieces ++ more) = ((cut front pieces).1 ++ (cut (cut front pieces).2 more).1,
      (cut (cut front pieces).2 more).2) := by
  induction pieces generalizing front with
  | nil => rfl
  | cons piece rest ih =>
    rw [List.cons_append, cut_cons, cut_cons]
    split
    · rw [ih]
      rfl
    · exact ih _

theorem cut_bytes (front : Bytes) (pieces : List Piece) :
    (cut front pieces).1.flatten ++ (cut front pieces).2 = front ++ bytes pieces := by
  induction pieces generalizing front with
  | nil => simp [cut_nil, bytes]
  | cons piece rest ih =>
    rw [cut_cons, bytes, List.flatMap_cons, ← List.append_assoc]
    split
    · rw [List.flatten_cons, List.append_assoc, ih, List.nil_append]
      rfl
    · exact ih _

theorem cut_closed (hclosed : Closed pieces) (hfront : pieces = [] → front = []) :
    (cut front pieces).2 = [] := by
  induction pieces generalizing front with
  | nil => exact hfront rfl
  | cons piece rest ih =>
    have hrest : Closed rest := by
      intro last hlast
      refine hclosed last ?_
      cases rest with
      | nil => cases hlast
      | cons => exact hlast
    rw [cut_cons]
    split
    · exact ih hrest fun _ => rfl
    · rename_i hne
      refine ih hrest fun hnil => absurd (hclosed piece ?_) hne
      rw [hnil]
      rfl

theorem messages_append (hclosed : Closed pieces) (more : List Piece) :
    messages (pieces ++ more) = messages pieces ++ messages more := by
  rw [messages, cut_append, cut_closed hclosed fun _ => rfl]
  rfl

theorem messages_prefix (h : pieces <+: more) : messages pieces <+: messages more := by
  obtain ⟨rest, rfl⟩ := h
  rw [messages, messages, cut_append]
  exact List.prefix_append _ _

theorem messages_flatten (hclosed : Closed pieces) : (messages pieces).flatten = bytes pieces := by
  have hbytes := cut_bytes [] pieces
  rw [cut_closed hclosed fun _ => rfl, List.append_nil] at hbytes
  exact hbytes

theorem Closed.append (h : Closed more) (hne : more ≠ []) : Closed (pieces ++ more) := by
  intro last hlast
  refine h last ?_
  rwa [List.getLast?_append_of_ne_nil _ hne] at hlast

theorem Counted.append (hcounted : Counted pieces) (hclosed : Closed pieces) (hmore : Counted more) :
    Counted (pieces ++ more) := by
  rw [Counted, List.map_append, List.isChain_append]
  refine ⟨hcounted, hmore, fun n hn m _ => .inl ?_⟩
  rw [List.getLast?_map, Option.mem_map] at hn
  obtain ⟨last, hlast, rfl⟩ := hn
  exact hclosed last hlast

/-! ## What is sent -/

theorem fragments_zero (stream : Bool) (mss : ℕ) (buffer : Bytes) : fragments stream mss 0 buffer = [] :=
  rfl

theorem fragments_succ (stream : Bool) (mss count : ℕ) (buffer : Bytes) :
    (fragments stream mss (count + 1) buffer).map Seg.piece =
      (if stream then 0 else UInt32.ofNat count, buffer.take mss) ::
        (fragments stream mss count (buffer.drop mss)).map Seg.piece :=
  rfl

theorem fragments_bytes (stream : Bool) (mss count : ℕ) (buffer : Bytes) :
    bytes ((fragments stream mss count buffer).map Seg.piece) = buffer.take (count * mss) := by
  induction count generalizing buffer with
  | zero => simp [fragments_zero, bytes]
  | succ count ih =>
    have hrest := ih (buffer.drop mss)
    rw [bytes] at hrest
    rw [fragments_succ, bytes, List.flatMap_cons, hrest, Nat.succ_mul, Nat.add_comm,
      List.take_add]

theorem fragments_small (stream : Bool) (mss : ℕ) {count : ℕ} (hcount : count ≤ 128) (buffer : Bytes) :
    ∀ p ∈ (fragments stream mss count buffer).map Seg.piece, p.1.toNat < 128 ∧ p.2.length ≤ mss := by
  induction count generalizing buffer with
  | zero => simp [fragments_zero]
  | succ count ih =>
    intro p hp
    rw [fragments_succ, List.mem_cons] at hp
    rcases hp with rfl | hp
    · refine ⟨?_, by simp⟩
      cases stream
      · show (UInt32.ofNat count).toNat < 128
        rw [UInt32.toNat_ofNat']
        omega
      · exact Nat.zero_lt_succ 127
    · exact ih (by omega) _ p hp

theorem length_fragments (stream : Bool) (mss count : ℕ) (buffer : Bytes) :
    (fragments stream mss count buffer).length = count := by
  induction count generalizing buffer with
  | zero => rfl
  | succ count ih => exact congrArg (· + 1) (ih _)

theorem fragments_closed (stream : Bool) (mss count : ℕ) (buffer : Bytes) :
    Closed ((fragments stream mss count buffer).map Seg.piece) := by
  induction count generalizing buffer with
  | zero => simp [fragments_zero, Closed]
  | succ count ih =>
    intro last hlast
    cases count with
    | zero =>
      obtain rfl := Option.some.inj hlast
      cases stream <;> rfl
    | succ count => exact ih _ last hlast

theorem fragments_counted (stream : Bool) (mss : ℕ) {count : ℕ} (hcount : count ≤ 128)
    (buffer : Bytes) : Counted ((fragments stream mss count buffer).map Seg.piece) := by
  induction count generalizing buffer with
  | zero => simp [fragments_zero, Counted]
  | succ count ih =>
    rw [Counted, fragments_succ, List.map_cons, List.isChain_cons]
    refine ⟨fun m hm => ?_, ih (by omega) _⟩
    cases count with
    | zero => cases hm
    | succ count =>
      obtain rfl := Option.some.inj hm
      cases stream
      · refine .inr (UInt32.toNat_inj.mp ?_)
        show (UInt32.ofNat (count + 1)).toNat = (UInt32.ofNat count + 1).toNat
        rw [UInt32.toNat_add, UInt32.toNat_ofNat', UInt32.toNat_ofNat', UInt32.toNat_one]
        omega
      · exact .inl rfl

/-- Only the last fragment of a message ends it. -/
theorem length_cut_fragments (mss : ℕ) {count : ℕ} (hcount : count < 128) (front buffer : Bytes) :
    (cut front ((fragments false mss (count + 1) buffer).map Seg.piece)).1.length = 1 := by
  induction count generalizing front buffer with
  | zero => rfl
  | succ count ih =>
    have hne : UInt32.ofNat (count + 1) ≠ 0 := by
      intro heq
      have hzero := congrArg UInt32.toNat heq
      rw [UInt32.toNat_ofNat', UInt32.toNat_zero] at hzero
      omega
    rw [fragments_succ, cut_cons]
    exact Eq.trans (congrArg (fun r : List Bytes × Bytes => r.1.length) (if_neg hne))
      (ih (by omega) _ _)

/-- The fragments of one message are that message. -/
theorem fragments_messages (mss : ℕ) {count : ℕ} (hcount : count < 128) (buffer : Bytes) :
    messages ((fragments false mss (count + 1) buffer).map Seg.piece) =
      [buffer.take ((count + 1) * mss)] := by
  obtain ⟨message, hmessage⟩ := List.length_eq_one_iff.mp (length_cut_fragments mss hcount [] buffer)
  have hflatten := messages_flatten (fragments_closed false mss (count + 1) buffer)
  rw [fragments_bytes] at hflatten
  rw [messages] at hflatten ⊢
  rw [hmessage] at hflatten ⊢
  rw [← hflatten]
  simp

/-- What the user has sent is what the pieces hold. -/
structure Sent (stream : Bool) (pieces : List Piece) (sent : List Bytes) : Prop where
  counted : Counted pieces
  closed : Closed pieces
  bytes : bytes pieces = sent.flatten
  messages : stream = false → messages pieces = sent

theorem bytes_append (pieces more : List Piece) : bytes (pieces ++ more) = bytes pieces ++ bytes more :=
  List.flatMap_append

variable {stream : Bool} {sent : List Bytes}

theorem Sent.append (h : Sent stream pieces sent) (hcounted : Counted more) (hclosed : Closed more)
    (hne : more ≠ []) {buffer : Bytes} (hbytes : Kcp.bytes more = buffer)
    (hmessages : stream = false → Kcp.messages more = [buffer]) :
    Sent stream (pieces ++ more) (sent ++ [buffer]) where
  counted := h.counted.append h.closed hcounted
  closed := hclosed.append hne
  bytes := by
    rw [bytes_append, h.bytes, hbytes]
    simp
  messages := by
    intro hstream
    rw [messages_append h.closed, h.messages hstream, hmessages hstream]

/-- In a stream the last piece may grow. -/
theorem Sent.extend (h : Sent true (pieces ++ [piece]) sent) (buffer : Bytes) :
    Sent true (pieces ++ [(0, piece.2 ++ buffer)]) (sent ++ [buffer]) where
  counted := by
    have hzero : piece.1 = 0 := h.closed piece (by simp)
    have hcounted := h.counted
    rw [Counted, List.map_append, List.map_singleton] at hcounted ⊢
    rw [hzero] at hcounted
    exact hcounted
  closed := by
    intro last hlast
    rw [List.getLast?_concat] at hlast
    obtain rfl := Option.some.inj hlast
    rfl
  bytes := by
    have hbytes := h.bytes
    rw [bytes_append] at hbytes ⊢
    rw [List.flatten_append, ← hbytes]
    simp [Kcp.bytes]
  messages := Bool.noConfusion

/-! ## `ikcp_send` -/

variable {x : Kcpcb} {fromX : Direction} {sent : List Bytes} {buffer : Bytes}

/-- What of a buffer is going to be sent. -/
def accepted (kcp : Kcpcb) (buffer : Bytes) : List Bytes :=
  if (send kcp buffer).2 = 0 then [buffer]
  else if kcp.stream then [buffer.take (kcp.extend buffer)]
  else []

/-- The queue of a side that sends is another, still with small pieces. -/
theorem Direction.Ok.queue (h : fromX.Ok) (hs : fromX.sending = x.sending) {x' : Kcpcb}
    (hsame : x'.sending = { x.sending with sndQueue := x'.sending.sndQueue })
    (hroom : fromX.log.length + x'.sending.sndQueue.length < 2 ^ 31)
    (hsmall : ∀ p ∈ x'.sending.sndQueue, p.1.toNat < 128 ∧ p.2.length ≤ x.mss.toNat) :
    Goes fromX { fromX with sending := x'.sending } := by
  rw [← hs] at hsame
  have hline : ({ fromX with sending := x'.sending } : Direction).line = fromX.line := by
    rw [hsame]
    rfl
  refine ⟨?_, by rw [hline]⟩
  exact {
    setup := by
      rw [hsame]
      exact h.setup
    mtu := h.mtu
    mss := h.mss
    sound := by
      rw [hline]
      exact h.sound
    sndNxt := by
      rw [hsame]
      exact h.sndNxt
    rcvNxt := by
      rw [hline]
      exact h.rcvNxt
    room := hroom
    label := by
      rw [hsame]
      exact h.label
    small := by
      intro p hp
      rcases List.mem_append.mp hp with hlog | hqueue
      · exact h.small p (List.mem_append_left _ hlog)
      · rw [h.setup_eq hs]
        exact hsmall p hqueue
    acks := by
      rw [hline]
      exact h.acks }

theorem extend_of_message (hstream : x.stream = false) (buffer : Bytes) :
    extendLast x buffer = x ∧ x.extend buffer = 0 := by
  unfold extendLast Kcpcb.extend
  cases x.sndQueue.getLast? with
  | none => exact ⟨rfl, rfl⟩
  | some old => simp [hstream]

theorem extendLast_sending (x : Kcpcb) (buffer : Bytes) : (extendLast x buffer).sending =
    { x.sending with sndQueue := (extendLast x buffer).sending.sndQueue } := by
  unfold extendLast
  cases x.sndQueue.getLast? with
  | none => rfl
  | some old =>
    simp only
    split <;> rfl

theorem extendLast_receiving (x : Kcpcb) (buffer : Bytes) :
    (extendLast x buffer).receiving = x.receiving := by
  unfold extendLast
  cases x.sndQueue.getLast? with
  | none => rfl
  | some old =>
    simp only
    split <;> rfl

/-- The last segment that waits grows at most to `mss`. -/
theorem extendLast_cases (hstream : x.stream = true) (buffer : Bytes) :
    (extendLast x buffer = x ∧ x.extend buffer = 0) ∨
    ∃ queue old, x.sending.sndQueue = queue ++ [old] ∧
      (extendLast x buffer).sending.sndQueue = queue ++ [(0, old.2 ++ buffer.take (x.extend buffer))] ∧
      old.2.length + x.extend buffer ≤ x.mss.toNat := by
  unfold extendLast Kcpcb.extend
  cases hlast : x.sndQueue.getLast? with
  | none => exact .inl ⟨rfl, rfl⟩
  | some old =>
    simp only [hstream, true_and]
    split
    · refine .inr ⟨x.sndQueue.dropLast.map Seg.piece, old.piece, ?_,
        by simp [Kcpcb.sending, Seg.piece], ?_⟩
      · have hqueue := List.dropLast_append_getLast? old hlast
        rw [← List.map_singleton, ← List.map_append, hqueue]
        rfl
      · show old.data.length + _ ≤ _
        omega
    · exact .inl ⟨rfl, rfl⟩

theorem Sent.of_stream {pieces : List Piece} {sent' : List Bytes} (h : Sent true pieces sent)
    (hflatten : sent.flatten = sent'.flatten) : Sent true pieces sent' :=
  { h with bytes := h.bytes.trans hflatten, messages := Bool.noConfusion }

/-- What a stream has accepted when the last segment is filled. -/
def extended (kcp : Kcpcb) (buffer : Bytes) : List Bytes :=
  if kcp.stream then [buffer.take (kcp.extend buffer)] else []

theorem extendLast_goes (buffer : Bytes) (h : fromX.Ok) (hs : fromX.sending = x.sending)
    (hsent : Sent x.stream (fromX.log ++ fromX.sending.sndQueue) sent) :
    Goes fromX { fromX with sending := (extendLast x buffer).sending } ∧
      (extendLast x buffer).sending.sndQueue.length = x.sending.sndQueue.length ∧
      Sent x.stream (fromX.log ++ (extendLast x buffer).sending.sndQueue)
        (sent ++ extended x buffer) := by
  have hsmall : ∀ p ∈ x.sending.sndQueue, p.1.toNat < 128 ∧ p.2.length ≤ x.mss.toNat := by
    intro p hp
    have hold := h.small p (List.mem_append_right _ (hs ▸ hp))
    rw [h.setup_eq hs] at hold
    exact hold
  have hroom := h.room
  rw [hs] at hroom hsent
  cases hstream : x.stream with
  | false =>
    rw [(extend_of_message hstream buffer).1, ← hs]
    refine ⟨h.goes, rfl, ?_⟩
    rw [hs, ← hstream, extended, hstream, if_neg Bool.false_ne_true, List.append_nil, ← hstream]
    exact hsent
  | true =>
    rw [hstream] at hsent
    rw [extended, if_pos hstream]
    rcases extendLast_cases hstream buffer with ⟨hsame, hzero⟩ | ⟨queue, old, hqueue, hnew, hfull⟩
    · rw [hsame, ← hs, hzero]
      refine ⟨h.goes, rfl, ?_⟩
      rw [hs]
      exact hsent.of_stream (by simp)
    · have hlength : (extendLast x buffer).sending.sndQueue.length = x.sending.sndQueue.length := by
        rw [hqueue, hnew, List.length_append, List.length_append]
        rfl
      refine ⟨h.queue hs (extendLast_sending x buffer) (hlength ▸ hroom) fun p hp => ?_, hlength, ?_⟩
      · rw [hnew] at hp
        rcases List.mem_append.mp hp with hold | hlast
        · exact hsmall p (hqueue ▸ List.mem_append_left _ hold)
        · rw [List.mem_singleton.mp hlast]
          refine ⟨Nat.zero_lt_succ 127, ?_⟩
          rw [List.length_append, List.length_take]
          exact Nat.le_trans (Nat.add_le_add_left (Nat.min_le_left _ _) _) hfull
      · rw [hqueue, ← List.append_assoc] at hsent
        rw [hnew, ← List.append_assoc]
        exact hsent.extend _

/-- The number of fragments is enough for the buffer. -/
theorem le_count_mul {length mss : ℕ} (hmss : 0 < mss) : length ≤ fragmentCount length mss * mss := by
  unfold fragmentCount
  split
  · omega
  · have hdiv := Nat.div_add_mod (length + mss - 1) mss
    have hmod := Nat.mod_lt (length + mss - 1) hmss
    rw [Nat.mul_comm] at hdiv
    omega

theorem fragmentCount_pos (length : ℕ) {mss : ℕ} (hmss : 0 < mss) : 0 < fragmentCount length mss := by
  unfold fragmentCount
  split
  · exact Nat.one_pos
  · exact Nat.div_pos (by omega) hmss

/-- The fragments of a buffer stand for it. -/
theorem Sent.fragments {pieces : List Piece} {stream : Bool} (h : Sent stream pieces sent) {mss : ℕ}
    (hmss : 0 < mss) (hcount : fragmentCount buffer.length mss < 128) :
    Sent stream
      (pieces ++ (Kcp.fragments stream mss (fragmentCount buffer.length mss) buffer).map Seg.piece)
      (sent ++ [buffer]) := by
  have hbuffer : buffer.take (fragmentCount buffer.length mss * mss) = buffer :=
    List.take_of_length_le (le_count_mul hmss)
  have hpos := fragmentCount_pos buffer.length hmss
  obtain ⟨count, hsucc⟩ := Nat.exists_eq_succ_of_ne_zero hpos.ne'
  rw [hsucc] at hbuffer hcount ⊢
  refine h.append (fragments_counted _ _ hcount.le _) (fragments_closed _ _ _ _) (List.cons_ne_nil _ _)
    ((fragments_bytes _ _ _ _).trans hbuffer) fun hstream => ?_
  rw [hstream, fragments_messages _ (by omega), hbuffer]

theorem send_cases (x : Kcpcb) (buffer : Bytes) :
    (send x buffer = (extendLast x buffer, 0) ∧ x.stream = true ∧ buffer.drop (x.extend buffer) = []) ∨
    send x buffer = (extendLast x buffer, -2) ∨
    (fragmentCount (buffer.drop (x.extend buffer)).length x.mss.toNat < 128 ∧
      send x buffer = ({ extendLast x buffer with
        sndQueue := (extendLast x buffer).sndQueue ++ fragments x.stream x.mss.toNat
          (fragmentCount (buffer.drop (x.extend buffer)).length x.mss.toNat)
          (buffer.drop (x.extend buffer)) }, 0)) := by
  unfold send
  simp only
  split
  · exact .inl ⟨rfl, ‹_›⟩
  · split
    · exact .inr (.inl rfl)
    · exact .inr (.inr ⟨not_le.mp ‹_›, rfl⟩)

theorem send_receiving (x : Kcpcb) (buffer : Bytes) : (send x buffer).1.receiving = x.receiving := by
  rcases send_cases x buffer with ⟨heq, -⟩ | heq | ⟨-, heq⟩ <;> rw [heq]
  · exact extendLast_receiving x buffer
  · exact extendLast_receiving x buffer
  · exact extendLast_receiving x buffer

/-- `ikcp_send` puts what it accepts behind what waits. -/
theorem send_goes (buffer : Bytes) (h : fromX.Ok) (hs : fromX.sending = x.sending)
    (hroom : fromX.log.length + x.sending.sndQueue.length + 128 ≤ 2 ^ 31)
    (hsent : Sent x.stream (fromX.log ++ fromX.sending.sndQueue) sent) :
    Goes fromX { fromX with sending := (send x buffer).1.sending } ∧
      Sent x.stream (fromX.log ++ (send x buffer).1.sending.sndQueue)
        (sent ++ accepted x buffer) := by
  have hmss : 0 < x.mss.toNat := by
    have hpos := h.mss
    rw [h.setup_eq hs] at hpos
    exact hpos
  obtain ⟨hgoes, hlength, hsent'⟩ := extendLast_goes buffer h hs hsent
  unfold accepted
  rcases send_cases x buffer with ⟨heq, hstream, hdrop⟩ | heq | ⟨hcount, heq⟩
  · rw [heq, if_pos rfl]
    rw [extended, if_pos hstream, List.take_of_length_le (List.drop_eq_nil_iff.mp hdrop)] at hsent'
    exact ⟨hgoes, hsent'⟩
  · rw [heq]
    exact ⟨hgoes, hsent'⟩
  · rw [heq, if_pos rfl]
    have hfragments := hsent'.fragments hmss hcount
    have hsmall := fragments_small x.stream x.mss.toNat hcount.le (buffer.drop (x.extend buffer))
    have hfew := length_fragments x.stream x.mss.toNat
      (fragmentCount (buffer.drop (x.extend buffer)).length x.mss.toNat)
      (buffer.drop (x.extend buffer))
    generalize fragments x.stream x.mss.toNat _ _ = new at hfragments hsmall hfew ⊢
    have hsame : Kcpcb.sending { extendLast x buffer with
        sndQueue := (extendLast x buffer).sndQueue ++ new } =
        { (extendLast x buffer).sending with
          sndQueue := (extendLast x buffer).sending.sndQueue ++ new.map Seg.piece } := by
      rw [Kcpcb.sending, List.map_append]
      rfl
    have hsetup : (extendLast x buffer).setup = x.setup :=
      congrArg Sending.setup (extendLast_sending x buffer)
    have hmss' : (extendLast x buffer).mss = x.mss := congrArg Setup.mss hsetup
    refine ⟨hgoes.trans (hgoes.1.queue rfl rfl ?_ fun p hp => ?_), ?_⟩
    · rw [hsame]
      show fromX.log.length + ((extendLast x buffer).sending.sndQueue ++ new.map Seg.piece).length < _
      rw [List.length_append, List.length_map, hfew, hlength]
      omega
    · rw [hsame] at hp
      rw [hmss']
      rcases List.mem_append.mp hp with hold | hnew
      · have hold' := hgoes.1.small p (List.mem_append_right _ hold)
        rw [hgoes.1.setup_eq rfl, hsetup] at hold'
        exact hold'
      · exact hsmall p hnew
    · rw [hsame]
      rw [List.append_assoc fromX.log] at hfragments
      cases hstream : x.stream with
      | true =>
        rw [hstream, extended, if_pos hstream] at hfragments
        exact hfragments.of_stream (by simp)
      | false =>
        rw [hstream, extended, hstream, if_neg Bool.false_ne_true, List.append_nil,
          (extend_of_message hstream buffer).2] at hfragments
        exact hfragments

/-! ## `ikcp_recv` -/

variable {toX : Direction} {received : List Bytes}

/-- What the user gets; a peek leaves it where it is. -/
def delivered (kcp : Kcpcb) (len : ℤ) : List Bytes :=
  if 0 ≤ len ∧ 0 ≤ (recv kcp len).2.1 then [(recv kcp len).2.2] else []

/-- The first message of a queue is merged when it is complete. -/
theorem mergeFragments_cut {queue : List Seg} (front : Bytes) (h : ∃ seg ∈ queue, seg.frg = 0) :
    ∃ part, queue.map Seg.piece = part ++ (mergeFragments queue).2.map Seg.piece ∧ Closed part ∧
      cut front part = ([front ++ (mergeFragments queue).1], []) := by
  induction queue generalizing front with
  | nil =>
    obtain ⟨seg, hseg, -⟩ := h
    cases hseg
  | cons seg queue ih =>
    rw [mergeFragments]
    split
    · rename_i hlast
      refine ⟨[seg.piece], rfl, ?_, ?_⟩
      · intro last hlast'
        obtain rfl := Option.some.inj hlast'
        exact hlast
      · rw [cut_cons, if_pos (show seg.piece.1 = 0 from hlast)]
        rfl
    · rename_i hmore
      have hrest : ∃ seg ∈ queue, seg.frg = 0 := by
        obtain ⟨seg', hseg', hzero⟩ := h
        rcases List.mem_cons.mp hseg' with rfl | hseg'
        · exact absurd hzero hmore
        · exact ⟨seg', hseg', hzero⟩
      obtain ⟨part, hpart, hclosed, hcut⟩ := ih (front ++ seg.data) hrest
      refine ⟨seg.piece :: part, by rw [List.map_cons, hpart]; rfl, ?_, ?_⟩
      · cases part with
        | nil => cases hcut
        | cons => exact hclosed
      · rw [cut_cons, if_neg (show ¬ seg.piece.1 = 0 from hmore)]
        show cut (front ++ seg.data) part = _
        rw [hcut, List.append_assoc]

/-- A queue that is as long as its first number says has the end of the message. -/
theorem exists_last {seg : Seg} {queue : List Seg} (hcounted : Counted ((seg :: queue).map Seg.piece))
    (hlong : seg.frg.toNat ≤ queue.length) : ∃ last ∈ seg :: queue, last.frg = 0 := by
  induction queue generalizing seg with
  | nil =>
    refine ⟨seg, List.mem_cons_self, UInt32.toNat_inj.mp ?_⟩
    simpa using hlong
  | cons next queue ih =>
    rw [Counted, List.map_cons, List.map_cons, List.map_cons, List.map_cons,
      List.isChain_cons_cons] at hcounted
    rcases hcounted.1 with hzero | hnext
    · exact ⟨seg, List.mem_cons_self, hzero⟩
    · by_cases hwrap : seg.frg = 0
      · exact ⟨seg, List.mem_cons_self, hwrap⟩
      · have hsucc : seg.frg.toNat = next.frg.toNat + 1 := by
          have hlt := next.frg.toNat_lt
          have heq : seg.frg.toNat = (next.frg + 1).toNat := congrArg UInt32.toNat hnext
          have hpos : seg.frg.toNat ≠ 0 := fun h => hwrap (UInt32.toNat_inj.mp h)
          rw [UInt32.toNat_add, UInt32.toNat_one] at heq
          omega
        rw [List.length_cons] at hlong
        obtain ⟨last, hlast, hzero⟩ := ih hcounted.2 (by omega)
        exact ⟨last, List.mem_cons_of_mem seg hlast, hzero⟩

/-- What `ikcp_peeksize` knows of the queue. -/
theorem peeksize_complete (hcounted : Counted x.receiving.rcvQueue)
    (hshort : x.rcvQueue.length < 2 ^ 31) (hsmall : ∀ p ∈ x.receiving.rcvQueue, p.1.toNat < 128)
    (h : 0 ≤ peeksize x) : ∃ seg ∈ x.rcvQueue, seg.frg = 0 := by
  cases hqueue : x.rcvQueue with
  | nil =>
    rw [peeksize, hqueue] at h
    exact absurd h (not_le.mpr (Int.negSucc_lt_zero 0))
  | cons seg queue =>
    unfold peeksize Kcpcb.nrcvQue at h
    unfold Kcpcb.receiving at hcounted hsmall
    rw [hqueue] at h hcounted hsmall hshort
    simp only at h
    split at h
    · exact ⟨seg, List.mem_cons_self, ‹_›⟩
    · split at h
      · exact absurd h (by decide)
      · rename_i hlong
        refine exists_last hcounted ?_
        have hfrg : seg.frg.toNat < 128 := hsmall seg.piece List.mem_cons_self
        have hle : (seg.frg + 1).toNat ≤ (UInt32.ofNat (seg :: queue).length).toNat := not_lt.mp hlong
        rw [UInt32.toNat_add, UInt32.toNat_ofNat', UInt32.toNat_one] at hle
        rw [List.length_cons] at hshort hle
        omega

/-- The received messages are those in the pieces that were handed out. -/
structure Got (consumed : List Piece) (received : List Bytes) : Prop where
  closed : Closed consumed
  messages : messages consumed = received

theorem fastRecover_receiving (kcp : Kcpcb) (recover : Bool) :
    (fastRecover kcp recover).receiving = kcp.receiving := by
  unfold fastRecover
  split <;> rfl

theorem fastRecover_sending (kcp : Kcpcb) (recover : Bool) :
    (fastRecover kcp recover).sending = kcp.sending := by
  unfold fastRecover
  split <;> rfl

theorem recv_cases (x : Kcpcb) (len : ℤ) :
    ((recv x len).1 = x ∧ (recv x len).2.1 < 0) ∨
    (0 ≤ peeksize x ∧
      (recv x len).1.receiving = (moveAvailable { x with
        rcvQueue := if len < 0 then x.rcvQueue else (mergeFragments x.rcvQueue).2 } x.rcvBuf).receiving ∧
      (recv x len).2 = (((mergeFragments x.rcvQueue).1.length : ℤ), (mergeFragments x.rcvQueue).1)) := by
  unfold recv
  split
  · exact .inl ⟨rfl, Int.negSucc_lt_zero 0⟩
  · split
    · exact .inl ⟨rfl, Int.negSucc_lt_zero 1⟩
    · split
      · exact .inl ⟨rfl, Int.negSucc_lt_zero 2⟩
      · refine .inr ⟨not_lt.mp ‹_›, ?_, rfl⟩
        exact fastRecover_receiving _ _

theorem recv_sending (x : Kcpcb) (len : ℤ) : (recv x len).1.sending = x.sending := by
  unfold recv
  split
  · rfl
  · split
    · rfl
    · split
      · rfl
      · show (fastRecover (moveAvailable _ x.rcvBuf) _).sending = _
        rw [fastRecover_sending, moveAvailable_sending]
        rfl

/-- A message is taken from the front of the queue. -/
theorem Direction.Ok.take (h : toX.Ok) (hr : toX.receiving = x.receiving) {part : List Piece}
    {rest : List Seg} (hpart : x.rcvQueue.map Seg.piece = part ++ rest.map Seg.piece) :
    Goes toX { toX with
      receiving := { x with rcvQueue := rest }.receiving
      consumed := toX.consumed ++ part } := by
  refine h.stay ?_ (by rw [hr]; rfl) fun sn hsn => h.acks sn ?_
  · rw [Direction.line, Direction.line, hr]
    simp only [Kcpcb.receiving, hpart, List.append_assoc]
  · rw [hr]
    exact hsn

/-- `ikcp_recv` hands out the next message when it is there, and nothing else. -/
theorem recv_goes (x : Kcpcb) (len : ℤ) (h : toX.Ok) (hr : toX.receiving = x.receiving)
    (hcounted : Counted toX.log) (hgot : Got toX.consumed received) :
    ∃ part, Goes toX { toX with
        receiving := (recv x len).1.receiving
        consumed := toX.consumed ++ part } ∧
      Got (toX.consumed ++ part) (received ++ delivered x len) := by
  have hinside : x.receiving.rcvQueue <:+: toX.log := by
    rw [← hr]
    exact (List.suffix_append _ _).isInfix.trans h.sound.arrived.isInfix
  have hqueue : Counted x.receiving.rcvQueue := List.IsChain.infix hcounted (hinside.map _)
  have hshort : x.rcvQueue.length < 2 ^ 31 := by
    have hle : (x.rcvQueue.map Seg.piece).length ≤ toX.log.length := hinside.length_le
    have hroom := h.room
    rw [List.length_map] at hle
    omega
  have hsmall : ∀ p ∈ x.receiving.rcvQueue, p.1.toNat < 128 := fun p hp =>
    (h.small p (List.mem_append_left _ (hinside.subset hp))).1
  have hnothing : delivered x len = [] → ∀ x' : Kcpcb,
      Goes toX { toX with receiving := x'.receiving } → ∃ part, Goes toX { toX with
        receiving := x'.receiving
        consumed := toX.consumed ++ part } ∧
      Got (toX.consumed ++ part) (received ++ delivered x len) := by
    intro hnone x' hgoes
    refine ⟨[], ?_, ?_⟩
    · rw [List.append_nil]
      exact hgoes
    · rw [hnone, List.append_nil, List.append_nil]
      exact hgot
  rcases recv_cases x len with ⟨hsame, herror⟩ | ⟨hpeek, hrecv, hresult⟩
  · refine hnothing (if_neg fun hgood => absurd hgood.2 (not_le.mpr herror)) (recv x len).1 ?_
    rw [hsame, ← hr]
    exact h.goes
  · by_cases hlen : len < 0
    · rw [if_pos hlen] at hrecv
      refine hnothing (if_neg fun hgood => absurd hgood.1 (not_le.mpr hlen)) (recv x len).1 ?_
      rw [hrecv]
      exact moveAvailable_goes x h hr
    · rw [if_neg hlen] at hrecv
      obtain ⟨part, hpart, hclosed, hcut⟩ :=
        mergeFragments_cut [] (peeksize_complete hqueue hshort hsmall hpeek)
      have htake := h.take hr hpart
      refine ⟨part, ?_, ?_, ?_⟩
      · rw [hrecv]
        exact htake.trans (moveAvailable_goes _ htake.1 rfl)
      · refine hclosed.append ?_
        rintro rfl
        cases hcut
      · rw [messages_append hgot.closed, hgot.messages, messages, hcut, delivered, hresult,
          if_pos ⟨not_lt.mp hlen, Int.natCast_nonneg _⟩]
        rfl

end CServer.Kcp
