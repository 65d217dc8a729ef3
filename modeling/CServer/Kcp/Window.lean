import CServer.Kcp.Session

/-!
# The window of the receiver

Whatever comes in, from the peer or not, a control block keeps no more than its window says.
-/
namespace CServer.Kcp

/-- How far a number is from the one that is next. -/
def ahead (nxt sn : UInt32) : ℕ := (sn - nxt).toNat

structure Receiving.Within (r : Receiving) : Prop where
  wnd : r.rcvWnd.toNat < 2 ^ 31
  queue : r.rcvQueue.length ≤ r.rcvWnd.toNat
  sorted : r.rcvBuf.Pairwise fun p q => ahead r.rcvNxt p.1 < ahead r.rcvNxt q.1
  near : ∀ p ∈ r.rcvBuf, ahead r.rcvNxt p.1 < r.rcvWnd.toNat

variable {kcp : Kcpcb} {seg : Seg} {r : Receiving}

/-! ## Numbers within the window -/

theorem ahead_succ {nxt sn : UInt32} (h : 0 < ahead nxt sn) : ahead (nxt + 1) sn + 1 = ahead nxt sn := by
  have hone : sn - (nxt + 1) = sn - nxt - 1 := sub_add_eq_sub_sub sn nxt 1
  unfold ahead at h ⊢
  have hle : (1 : UInt32).toNat ≤ (sn - nxt).toNat := h
  rw [hone, UInt32.toNat_sub_of_le _ _ (UInt32.le_iff_toNat_le.mpr hle), UInt32.toNat_one]
  exact Nat.sub_add_cancel h

theorem itimediff_ahead {nxt a b : UInt32} (ha : ahead nxt a < 2 ^ 31) (hb : ahead nxt b < 2 ^ 31) :
    itimediff a b = (ahead nxt a : ℤ) - ahead nxt b := by
  have hsame : itimediff a b = itimediff (a - nxt) (b - nxt) := by
    unfold itimediff
    rw [sub_sub_sub_cancel_right]
  rw [hsame]
  exact itimediff_eq ha hb

theorem ahead_inj {nxt a b : UInt32} (h : ahead nxt a = ahead nxt b) : a = b :=
  sub_left_injective (UInt32.toNat_inj.mp h)

/-- What `ikcp_parse_data` checks. -/
theorem ahead_lt {nxt wnd sn : UInt32} (hwnd : wnd.toNat < 2 ^ 31) (hnext : 0 ≤ itimediff sn nxt)
    (hwindow : itimediff sn (nxt + wnd) < 0) : ahead nxt sn < wnd.toNat := by
  have hhalf : ahead nxt sn < 2 ^ 31 := by
    have hint : itimediff sn nxt = (sn - nxt).toBitVec.toInt := rfl
    have hlt := (sn - nxt).toNat_lt
    rw [hint, BitVec.toInt_eq_toNat_cond] at hnext
    unfold ahead
    split at hnext
    · rename_i hsmall
      have hsmall' : 2 * (sn - nxt).toNat < 2 ^ 32 := hsmall
      omega
    · have hneg : 0 ≤ ((sn - nxt).toNat : ℤ) - 2 ^ 32 := hnext
      omega
  have hdiff : itimediff sn (nxt + wnd) = (ahead nxt sn : ℤ) - wnd.toNat := by
    rw [itimediff, sub_add_eq_sub_sub]
    exact itimediff_eq hhalf hwnd
  omega

theorem Receiving.Within.length_le (h : r.Within) : r.rcvBuf.length ≤ r.rcvWnd.toNat := by
  have hnodup : (r.rcvBuf.map fun p => ahead r.rcvNxt p.1).Nodup :=
    (List.pairwise_map.mpr h.sorted).imp fun hlt => Nat.ne_of_lt hlt
  have hsub : r.rcvBuf.map (fun p => ahead r.rcvNxt p.1) ⊆ List.range r.rcvWnd.toNat := by
    intro n hn
    obtain ⟨p, hp, rfl⟩ := List.mem_map.mp hn
    exact List.mem_range.mpr (h.near p hp)
  have hle := (hnodup.subperm hsub).length_le
  rwa [List.length_map, List.length_range] at hle

/-! ## What each function does -/

theorem moveAvailable_within {buf : List Seg}
    (h : (Kcpcb.receiving { kcp with rcvBuf := buf }).Within) :
    (moveAvailable kcp buf).receiving.Within := by
  induction buf generalizing kcp with
  | nil => exact h
  | cons seg buf ih =>
    rw [moveAvailable_cons]
    split
    · rename_i hnext
      obtain ⟨hsn, hroom⟩ := hnext
      have hsorted : (((seg :: buf).map fun seg => (seg.sn, seg.piece))).Pairwise
        fun p q => ahead kcp.rcvNxt p.1 < ahead kcp.rcvNxt q.1 := h.sorted
      rw [List.map_cons, List.pairwise_cons] at hsorted
      -- what is behind it comes one nearer
      have hsucc : ∀ p ∈ buf.map fun seg => (seg.sn, seg.piece),
          ahead (kcp.rcvNxt + 1) p.1 + 1 = ahead kcp.rcvNxt p.1 := by
        intro p hp
        refine ahead_succ (Nat.lt_of_le_of_lt (Nat.zero_le _) (hsorted.1 p hp))
      have hqueue : kcp.rcvQueue.length < kcp.rcvWnd.toNat := by
        have hlt : (UInt32.ofNat kcp.rcvQueue.length).toNat < kcp.rcvWnd.toNat := hroom
        have hle : (kcp.rcvQueue.map Seg.piece).length ≤ kcp.rcvWnd.toNat := h.queue
        have hwnd : kcp.rcvWnd.toNat < 2 ^ 31 := h.wnd
        rw [List.length_map] at hle
        rw [UInt32.toNat_ofNat'] at hlt
        omega
      refine ih ⟨h.wnd, ?_, ?_, ?_⟩
      · show ((kcp.rcvQueue ++ [seg]).map Seg.piece).length ≤ kcp.rcvWnd.toNat
        rw [List.length_map, List.length_append, List.length_singleton]
        exact hqueue
      · refine hsorted.2.imp_of_mem fun hp hq hlt => ?_
        have hp' := hsucc _ hp
        have hq' := hsucc _ hq
        show ahead (kcp.rcvNxt + 1) _ < ahead (kcp.rcvNxt + 1) _
        omega
      · intro p hp
        have hp' := hsucc p hp
        have hlt : ahead kcp.rcvNxt p.1 < kcp.rcvWnd.toNat := h.near p (List.mem_cons_of_mem _ hp)
        show ahead (kcp.rcvNxt + 1) p.1 < kcp.rcvWnd.toNat
        omega
    · exact h

theorem parseData_within (h : kcp.receiving.Within) (seg : Seg) :
    (parseData kcp seg).receiving.Within := by
  unfold parseData
  split
  · exact h
  · rename_i hin
    rw [not_or, not_le, not_lt] at hin
    have hseg : ahead kcp.rcvNxt seg.sn < kcp.rcvWnd.toNat := ahead_lt h.wnd hin.2 hin.1
    split
    · rename_i buf hsome
      have hwnd : kcp.rcvWnd.toNat < 2 ^ 31 := h.wnd
      have hnear : ∀ p ∈ kcp.rcvBuf, ahead kcp.rcvNxt p.sn < kcp.rcvWnd.toNat := fun p hp =>
        h.near (p.sn, p.piece) (List.mem_map_of_mem (f := fun seg => (seg.sn, seg.piece)) hp)
      have hsorted : kcp.rcvBuf.Pairwise fun p q => ahead kcp.rcvNxt p.sn < ahead kcp.rcvNxt q.sn := by
        have hplaced : (kcp.rcvBuf.map fun seg => (seg.sn, seg.piece)).Pairwise
          fun p q => ahead kcp.rcvNxt p.1 < ahead kcp.rcvNxt q.1 := h.sorted
        rw [List.pairwise_map] at hplaced
        exact hplaced
      obtain ⟨front, back, hsplit, hplaced, hfront, hback⟩ := insertFromEnd_split (ahead kcp.rcvNxt)
        hsome hsorted (fun p hp => itimediff_ahead (by omega) (Nat.lt_trans (hnear p hp) hwnd))
        fun p _ heq => ahead_inj heq
      rw [hplaced]
      refine moveAvailable_within ⟨h.wnd, h.queue, ?_, ?_⟩
      · refine List.pairwise_map.mpr ?_
        rw [hsplit, List.pairwise_append] at hsorted
        refine List.pairwise_append.mpr ⟨hsorted.1, List.pairwise_cons.mpr ⟨?_, hsorted.2.1⟩, ?_⟩
        · exact hback
        · intro p hp q hq
          rcases List.mem_cons.mp hq with rfl | hq
          · exact hfront p hp
          · exact hsorted.2.2 p hp q hq
      · intro p hp
        obtain ⟨q, hq, rfl⟩ := List.mem_map.mp hp
        rcases List.mem_append.mp hq with hq | hq
        · exact hnear q (hsplit ▸ List.mem_append_left _ hq)
        · rcases List.mem_cons.mp hq with rfl | hq
          · exact hseg
          · exact hnear q (hsplit ▸ List.mem_append_right _ hq)
    · exact moveAvailable_within h

theorem inputPush_within (h : kcp.receiving.Within) (seg : Seg) :
    (inputPush kcp seg).receiving.Within := by
  unfold inputPush
  split
  · simp only
    split
    · have hack : (ackPush kcp seg.sn seg.ts).receiving.Within := { h with }
      exact parseData_within hack seg
    · exact { h with }
  · exact h

theorem inputSeg_within (h : kcp.receiving.Within) (maxack : Option UInt32) (seg : Seg) :
    (inputSeg kcp maxack seg).1.receiving.Within := by
  unfold inputSeg
  cases seg.cmd with
  | ack =>
    show (parseAck (takeRtt _ seg.ts) seg.sn).receiving.Within
    rw [parseAck_receiving, takeRtt_receiving]
    exact h
  | push =>
    let kcp' := shrinkBuf (parseUna { kcp with rmtWnd := seg.wnd } seg.una)
    exact inputPush_within (show kcp'.receiving.Within from h) seg
  | wask | wins => exact h

theorem inputSegs_within (h : kcp.receiving.Within) (maxack : Option UInt32) (data : Bytes) :
    (inputSegs kcp maxack data).1.receiving.Within := by
  fun_induction inputSegs kcp maxack data with
  | case1 kcp maxack data hshort => exact h
  | case2 kcp maxack data hlong code herror => exact h
  | case3 kcp maxack data hlong seg rest hok kcp' maxack' hseg ih =>
    have hstep := inputSeg_within h maxack seg
    rw [hseg] at hstep
    exact ih hstep

theorem input_within (h : kcp.receiving.Within) (data : Bytes) :
    (input kcp data).1.receiving.Within := by
  have hsegs := inputSegs_within h none data
  unfold input
  split
  · exact h
  · split
    · rename_i kcp' code heq
      rw [heq] at hsegs
      exact hsegs
    · rename_i kcp' maxack heq
      rw [heq] at hsegs
      cases maxack <;> simp only <;> split <;> simpa using hsegs

theorem length_mergeFragments (queue : List Seg) : (mergeFragments queue).2.length ≤ queue.length := by
  induction queue with
  | nil => exact Nat.le_refl _
  | cons seg queue ih =>
    rw [mergeFragments]
    split
    · exact Nat.le_succ _
    · exact Nat.le_succ_of_le ih

theorem recv_within (h : kcp.receiving.Within) (len : ℤ) : (recv kcp len).1.receiving.Within := by
  rcases recv_cases kcp len with ⟨hsame, -⟩ | ⟨-, hrecv, -⟩
  · rw [hsame]
    exact h
  · rw [hrecv]
    refine moveAvailable_within ⟨h.wnd, ?_, h.sorted, h.near⟩
    have hqueue : (kcp.rcvQueue.map Seg.piece).length ≤ kcp.rcvWnd.toNat := h.queue
    show ((if len < 0 then kcp.rcvQueue else (mergeFragments kcp.rcvQueue).2).map Seg.piece).length ≤
      kcp.rcvWnd.toNat
    rw [List.length_map] at hqueue ⊢
    split
    · exact hqueue
    · exact Nat.le_trans (length_mergeFragments _) hqueue

theorem flush_within (h : kcp.receiving.Within) : (flush kcp).1.receiving.Within := by
  unfold flush
  split
  · exact h
  · rw [← probeWindow_receiving kcp] at h
    simp only [closeWindow_receiving]
    show (moveToBuf (afterControl kcp) _ _ _).receiving.Within
    rw [moveToBuf_receiving]
    exact { h with }

theorem update_within (h : kcp.receiving.Within) (current : UInt32) :
    (update kcp current).1.receiving.Within := by
  obtain ⟨x, -, hr, heq | heq⟩ := update_cases kcp current
  · rw [heq]
    exact flush_within (hr ▸ h)
  · rw [heq]
    exact hr ▸ h

theorem wndsize_within (h : kcp.receiving.Within) {sndwnd rcvwnd : ℤ} (hint : rcvwnd < 2 ^ 31)
    (hgrow : kcp.rcvWnd ≤ (wndsize kcp sndwnd rcvwnd).rcvWnd) :
    (wndsize kcp sndwnd rcvwnd).receiving.Within := by
  have hle : kcp.rcvWnd.toNat ≤ (wndsize kcp sndwnd rcvwnd).rcvWnd.toNat := hgrow
  refine ⟨?_, Nat.le_trans h.queue hle, h.sorted, fun p hp => Nat.lt_of_lt_of_le (h.near p hp) hle⟩
  show (if 0 < rcvwnd then max (UInt32.ofInt rcvwnd) 128 else kcp.rcvWnd).toNat < 2 ^ 31
  split
  · rename_i hpos
    have hofInt : (UInt32.ofInt rcvwnd).toNat < 2 ^ 31 := by
      rw [UInt32.ofInt, UInt32.toNat_ofNat']
      omega
    show (if UInt32.ofInt rcvwnd ≤ 128 then (128 : UInt32) else UInt32.ofInt rcvwnd).toNat < 2 ^ 31
    split
    · decide
    · exact hofInt
  · exact h.wnd

/-! ## Any use -/

/-- What may happen to a control block; the datagrams may be forged. -/
inductive Use : Kcpcb → Kcpcb → Prop where
  | send (x : Kcpcb) (buffer : Bytes) : Use x (send x buffer).1
  | recv (x : Kcpcb) (len : ℤ) : Use x (recv x len).1
  | input (x : Kcpcb) (data : Bytes) : Use x (input x data).1
  | update (x : Kcpcb) (current : UInt32) : Use x (update x current).1
  | flush (x : Kcpcb) : Use x (flush x).1
  | nodelay (x : Kcpcb) (nodelay interval resend nc : ℤ) :
    Use x (setNodelay x nodelay interval resend nc)
  | wndsize (x : Kcpcb) (sndwnd rcvwnd : ℤ) (hint : rcvwnd < 2 ^ 31)
    (hgrow : x.rcvWnd ≤ (wndsize x sndwnd rcvwnd).rcvWnd) : Use x (wndsize x sndwnd rcvwnd)

theorem Use.within {x x' : Kcpcb} (h : x.receiving.Within) (huse : Use x x') :
    x'.receiving.Within := by
  cases huse with
  | send buffer =>
    rw [send_receiving]
    exact h
  | recv len => exact recv_within h len
  | input data => exact input_within h data
  | update current => exact update_within h current
  | flush => exact flush_within h
  | nodelay nodelay interval resend nc => exact h
  | wndsize sndwnd rcvwnd hint hgrow => exact wndsize_within h hint hgrow

theorem start_within (conv : UInt32) (stream : Bool) (mtu : ℤ) :
    (start conv stream mtu).receiving.Within := by
  rw [start_receiving]
  exact ⟨by decide, Nat.zero_le _, List.Pairwise.nil, fun p hp => absurd hp List.not_mem_nil⟩

/-- Neither queue of the receiver is ever longer than the window, and no segment is kept twice. -/
theorem receiver_bounded {conv : UInt32} {stream : Bool} {mtu : ℤ} {x : Kcpcb}
    (h : Relation.ReflTransGen Use (start conv stream mtu) x) :
    x.rcvQueue.length ≤ x.rcvWnd.toNat ∧ x.rcvBuf.length ≤ x.rcvWnd.toNat ∧
      (x.rcvBuf.map Seg.sn).Nodup := by
  have hwithin : x.receiving.Within := by
    induction h with
    | refl => exact start_within conv stream mtu
    | tail _ huse ih => exact huse.within ih
  have hqueue := hwithin.queue
  have hbuf := hwithin.length_le
  unfold Kcpcb.receiving at hqueue hbuf
  rw [List.length_map] at hqueue hbuf
  refine ⟨hqueue, hbuf, ?_⟩
  have hsorted : (x.rcvBuf.map fun seg => (seg.sn, seg.piece)).Pairwise
    fun p q => ahead x.rcvNxt p.1 < ahead x.rcvNxt q.1 := hwithin.sorted
  rw [List.pairwise_map] at hsorted
  refine List.pairwise_map.mpr (hsorted.imp fun hlt heq => ?_)
  exact Nat.ne_of_lt hlt (congrArg (ahead x.rcvNxt) heq)

/-- A segment with the number 5 that nobody has sent. -/
def forged : Bytes :=
  [7, 0, 0, 0, 81, 0, 128, 0, 0, 0, 0, 0, 5, 0, 0, 0, 0, 0, 0, 0, 1, 0, 0, 0, 33]

theorem receiver_bounded_forged : (input (start 7 false 1400) forged).1.rcvBuf.length = 1 ∧
    (input (start 7 false 1400) forged).1.rcvBuf.length ≤
      (input (start 7 false 1400) forged).1.rcvWnd.toNat :=
  ⟨by decide +kernel, (receiver_bounded (.single (.input _ forged))).2.1⟩

end CServer.Kcp
