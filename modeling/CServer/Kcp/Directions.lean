import CServer.Foundation.Delivery
import CServer.Kcp.Wire
import Mathlib.Data.List.TakeWhile

/-!
# The two directions of a session

A control block sends in one direction and receives in the other. Of all its members only these
matter for what arrives: the timers and windows decide when something is sent, not what.
-/
namespace CServer.Kcp

open Delivery

abbrev Piece := UInt32 × Bytes

def Seg.piece (seg : Seg) : Piece := (seg.frg, seg.data)

/-- A segment of `snd_buf` without its timer. -/
structure Label where
  conv : UInt32
  cmd : Cmd
  sn : UInt32
  piece : Piece

def Seg.label (seg : Seg) : Label := ⟨seg.conv, seg.cmd, seg.sn, seg.piece⟩

/-- What does not change in a session. -/
structure Setup where
  conv : UInt32
  stream : Bool
  mtu : UInt32
  mss : UInt32

structure Sending where
  setup : Setup
  sndNxt : UInt32
  sndQueue : List Piece
  sndBuf : List Label

structure Receiving where
  rcvWnd : UInt32
  rcvNxt : UInt32
  rcvQueue : List Piece
  rcvBuf : List (UInt32 × Piece)
  acks : List UInt32

def Kcpcb.setup (kcp : Kcpcb) : Setup where
  conv := kcp.conv
  stream := kcp.stream
  mtu := kcp.mtu
  mss := kcp.mss

def Kcpcb.sending (kcp : Kcpcb) : Sending where
  setup := kcp.setup
  sndNxt := kcp.sndNxt
  sndQueue := kcp.sndQueue.map Seg.piece
  sndBuf := kcp.sndBuf.map Seg.label

def Kcpcb.receiving (kcp : Kcpcb) : Receiving where
  rcvWnd := kcp.rcvWnd
  rcvNxt := kcp.rcvNxt
  rcvQueue := kcp.rcvQueue.map Seg.piece
  rcvBuf := kcp.rcvBuf.map fun seg => (seg.sn, seg.piece)
  acks := kcp.acklist.map Prod.fst

/-- One direction, with all the pieces that were numbered and those that the user has got. -/
structure Direction where
  setup : Setup
  sending : Sending
  receiving : Receiving
  log : List Piece
  consumed : List Piece

def Direction.line (d : Direction) : Line Piece where
  log := d.log
  held := d.sending.sndBuf.map fun l => (l.sn.toNat, l.piece)
  arrived := d.consumed ++ d.receiving.rcvQueue
  early := d.receiving.rcvBuf.map fun p => (p.1.toNat, p.2)

/-- A segment of `rcv_buf` in the line. -/
def Seg.place (seg : Seg) : ℕ × Piece := (seg.sn.toNat, seg.piece)

theorem Direction.early_eq {d : Direction} (buf : List Seg)
    (hd : d.receiving.rcvBuf = buf.map fun seg => (seg.sn, seg.piece)) :
    d.line.early = buf.map Seg.place := by
  rw [Direction.line, hd]
  exact List.map_map

structure Direction.Ok (d : Direction) : Prop where
  setup : d.sending.setup = d.setup
  mtu : d.setup.mtu.toNat = 24 + d.setup.mss.toNat ∧ d.setup.mtu.toNat < 2 ^ 31
  mss : 0 < d.setup.mss.toNat
  sound : d.line.Sound
  sndNxt : d.sending.sndNxt.toNat = d.log.length
  rcvNxt : d.receiving.rcvNxt.toNat = d.line.arrived.length
  room : d.log.length + d.sending.sndQueue.length < 2 ^ 31
  label : ∀ l ∈ d.sending.sndBuf, l.conv = d.setup.conv ∧ l.cmd = .push
  small : ∀ p ∈ d.log ++ d.sending.sndQueue, p.1.toNat < 128 ∧ p.2.length ≤ d.setup.mss.toNat
  acks : ∀ sn ∈ d.receiving.acks, d.line.Has sn.toNat

/-- The direction is still in order, and what was said of it is still true. -/
def Goes (d d' : Direction) : Prop := d'.Ok ∧ Steps d.line d'.line

variable {d d' d'' : Direction} {kcp : Kcpcb} {seg : Seg} {sn una : UInt32} {got : UInt32 → Prop}

theorem Direction.Ok.goes (h : d.Ok) : Goes d d := ⟨h, .refl⟩

theorem Goes.trans (h : Goes d d') (h' : Goes d' d'') : Goes d d'' := ⟨h'.1, h.2.trans h'.2⟩

theorem Direction.Ok.setup_eq (h : d.Ok) (hs : d.sending = kcp.sending) : d.setup = kcp.setup := by
  rw [← h.setup, hs]
  rfl

/-! ## Differences of numbers that do not wrap -/

theorem itimediff_eq {a b : UInt32} (ha : a.toNat < 2 ^ 31) (hb : b.toNat < 2 ^ 31) :
    itimediff a b = (a.toNat : ℤ) - b.toNat := by
  have hint : ∀ c : UInt32, c.toNat < 2 ^ 31 → c.toBitVec.toInt = c.toNat := fun c hc =>
    toInt_toInt32 hc
  show (a.toBitVec - b.toBitVec).toInt = _
  rw [BitVec.toInt_sub, hint a ha, hint b hb]
  exact Int.bmod_eq_of_le (by omega) (by omega)

theorem Direction.Ok.number_lt (h : d.Ok) {i : ℕ} {p : Piece} (hp : d.log[i]? = some p) :
    i < 2 ^ 31 := by
  have hlt : i < d.log.length := (List.getElem?_eq_some_iff.mp hp).1
  have hroom := h.room
  omega

theorem Direction.Ok.held_lt (h : d.Ok) {l : Label} (hl : l ∈ d.sending.sndBuf) :
    l.sn.toNat < 2 ^ 31 :=
  h.number_lt (h.sound.held _ (List.mem_map_of_mem hl))

theorem Direction.Ok.early_lt (h : d.Ok) {p : UInt32 × Piece} (hp : p ∈ d.receiving.rcvBuf) :
    p.1.toNat < 2 ^ 31 :=
  h.number_lt (h.sound.early _ (List.mem_map_of_mem hp)).2

theorem Direction.Ok.arrived_lt (h : d.Ok) : d.line.arrived.length < 2 ^ 31 := by
  have hle : d.line.arrived.length ≤ d.log.length := h.sound.arrived.length_le
  have hroom := h.room
  omega

theorem Direction.Ok.rcvNxt_eq (h : d.Ok) (hd : d.receiving = kcp.receiving) :
    kcp.rcvNxt.toNat = d.line.arrived.length := by
  rw [← h.rcvNxt, hd]
  rfl

theorem Direction.Ok.sndNxt_eq (h : d.Ok) (hs : d.sending = kcp.sending) :
    kcp.sndNxt.toNat = d.log.length := by
  rw [← h.sndNxt, hs]
  rfl

/-- A number that was sent is compared with `rcv_nxt`. -/
theorem Direction.Ok.itimediff_rcvNxt (h : d.Ok) (hd : d.receiving = kcp.receiving) {p : Piece}
    (hp : d.log[sn.toNat]? = some p) :
    itimediff sn kcp.rcvNxt = (sn.toNat : ℤ) - d.line.arrived.length := by
  have hnxt := h.rcvNxt_eq hd
  rw [itimediff_eq (h.number_lt hp) (by rw [hnxt]; exact h.arrived_lt), hnxt]

/-! ## The side that sends -/

/-- Nothing leaves `snd_buf` but numbers of which this holds. -/
def Sending.Releases (s s' : Sending) (got : UInt32 → Prop) : Prop :=
  ∃ buf, s' = { s with sndBuf := buf } ∧ buf ⊆ s.sndBuf ∧ ∀ l ∈ s.sndBuf, l ∉ buf → got l.sn

theorem Direction.Ok.releases (h : d.Ok) {s : Sending} (hs : d.sending.Releases s got)
    (hgot : ∀ l ∈ d.sending.sndBuf, got l.sn → d.line.Has l.sn.toNat) :
    Goes d { d with sending := s } := by
  obtain ⟨buf, rfl, hsub, hrest⟩ := hs
  have hstep : Step d.line { d.line with held := buf.map fun l => (l.sn.toNat, l.piece) } := by
    refine .release d.line _ (List.map_subset _ hsub) fun p hp hnot => ?_
    obtain ⟨l, hl, rfl⟩ := List.mem_map.mp hp
    exact hgot l hl (hrest l hl fun hbuf => hnot (List.mem_map_of_mem hbuf))
  refine ⟨?_, .single hstep⟩
  exact { h with
    sound := h.sound.step hstep
    label := fun l hl => h.label l (hsub hl) }

theorem Sending.Releases.trans {s s' s'' : Sending} (h : s.Releases s' got) (h' : s'.Releases s'' got) :
    s.Releases s'' got := by
  obtain ⟨buf, rfl, hsub, hrest⟩ := h
  obtain ⟨buf', rfl, hsub', hrest'⟩ := h'
  refine ⟨buf', rfl, fun l hl => hsub (hsub' hl), fun l hl hnot => ?_⟩
  by_cases hbuf : l ∈ buf
  · exact hrest' l hbuf hnot
  · exact hrest l hl hbuf

theorem parseUna_releases (kcp : Kcpcb) (h : ∀ sn, 0 < itimediff una sn → got sn) :
    kcp.sending.Releases (parseUna kcp una).sending got := by
  refine ⟨_, rfl, List.map_subset _ (List.dropWhile_sublist _).subset, fun l hl hnot => ?_⟩
  obtain ⟨seg, hseg, rfl⟩ := List.mem_map.mp hl
  rw [← List.takeWhile_append_dropWhile (p := fun seg => decide (0 < itimediff una seg.sn))
    (l := kcp.sndBuf), List.mem_append] at hseg
  rcases hseg with hseg | hseg
  · have hpos := List.mem_takeWhile_imp hseg
    exact h _ (of_decide_eq_true hpos)
  · exact absurd (List.mem_map_of_mem hseg) hnot

theorem removeSn_cons (sn : UInt32) (seg : Seg) (rest : List Seg) : removeSn sn (seg :: rest) =
    if sn = seg.sn then rest
    else if itimediff sn seg.sn < 0 then seg :: rest
    else seg :: removeSn sn rest := rfl

theorem removeSn_subset (sn : UInt32) (buf : List Seg) : removeSn sn buf ⊆ buf := by
  induction buf with
  | nil => exact List.Subset.refl _
  | cons seg rest ih =>
    rw [removeSn_cons]
    split
    · exact List.subset_cons_self _ _
    · split
      · exact List.Subset.refl _
      · exact List.cons_subset_cons _ ih

theorem mem_removeSn {buf : List Seg} (h : seg ∈ buf) (hne : sn ≠ seg.sn) : seg ∈ removeSn sn buf := by
  induction buf with
  | nil => exact h
  | cons first rest ih =>
    rw [removeSn_cons]
    rcases List.mem_cons.mp h with rfl | h
    · rw [if_neg hne]
      split <;> exact List.mem_cons_self
    · split
      · exact h
      · split
        · exact List.mem_cons_of_mem _ h
        · exact List.mem_cons_of_mem _ (ih h)

theorem parseAck_releases (kcp : Kcpcb) (h : got sn) :
    kcp.sending.Releases (parseAck kcp sn).sending got := by
  unfold parseAck
  split
  · refine ⟨_, rfl, List.map_subset _ (removeSn_subset sn _), fun l hl hnot => ?_⟩
    obtain ⟨seg, hseg, rfl⟩ := List.mem_map.mp hl
    by_cases hne : sn = seg.sn
    · rw [show seg.label.sn = sn from hne.symm]
      exact h
    · exact absurd (List.mem_map_of_mem (mem_removeSn hseg hne)) hnot
  · exact ⟨_, rfl, List.Subset.refl _, fun l hl hnot => absurd hl hnot⟩

theorem countSkips_label (sn : UInt32) (buf : List Seg) :
    (countSkips sn buf).map Seg.label = buf.map Seg.label := by
  induction buf with
  | nil => rfl
  | cons seg rest ih =>
    rw [countSkips]
    split
    · rfl
    · split <;> exact congrArg (seg.label :: ·) ih

@[simp] theorem parseFastack_sending (kcp : Kcpcb) (sn : UInt32) :
    (parseFastack kcp sn).sending = kcp.sending := by
  unfold parseFastack
  split
  · rw [Kcpcb.sending, Kcpcb.sending]
    exact congrArg _ (countSkips_label sn _)
  · rfl

@[simp] theorem parseFastack_receiving (kcp : Kcpcb) (sn : UInt32) :
    (parseFastack kcp sn).receiving = kcp.receiving := by
  unfold parseFastack
  split <;> rfl

@[simp] theorem parseAck_receiving (kcp : Kcpcb) (sn : UInt32) :
    (parseAck kcp sn).receiving = kcp.receiving := by
  unfold parseAck
  split <;> rfl

@[simp] theorem takeRtt_sending (kcp : Kcpcb) (ts : UInt32) :
    (takeRtt kcp ts).sending = kcp.sending := by
  unfold takeRtt
  split <;> rfl

@[simp] theorem takeRtt_receiving (kcp : Kcpcb) (ts : UInt32) :
    (takeRtt kcp ts).receiving = kcp.receiving := by
  unfold takeRtt
  split <;> rfl

/-! ## The side that receives -/

@[simp] theorem moveAvailable_sending (kcp : Kcpcb) (buf : List Seg) :
    (moveAvailable kcp buf).sending = kcp.sending := by
  induction buf generalizing kcp with
  | nil => rfl
  | cons seg buf ih =>
    rw [moveAvailable_cons]
    split
    · exact ih _
    · rfl

theorem parseData_sending (kcp : Kcpcb) (seg : Seg) : (parseData kcp seg).sending = kcp.sending := by
  unfold parseData
  split
  · rfl
  · split <;> exact moveAvailable_sending _ _

@[simp] theorem inputPush_sending (kcp : Kcpcb) (seg : Seg) :
    (inputPush kcp seg).sending = kcp.sending := by
  unfold inputPush
  split
  · simp only
    split
    · exact parseData_sending _ _
    · rfl
  · rfl

theorem moveAvailable_goes (kcp : Kcpcb) {buf : List Seg} (h : d.Ok)
    (hd : d.receiving = { kcp with rcvBuf := buf }.receiving) :
    Goes d { d with receiving := (moveAvailable kcp buf).receiving } := by
  induction buf generalizing kcp d with
  | nil =>
    rw [moveAvailable_nil, ← hd]
    exact h.goes
  | cons seg buf ih =>
    rw [moveAvailable_cons]
    split
    · rename_i hnext
      have hnxt : kcp.rcvNxt.toNat = d.line.arrived.length := (h.rcvNxt_eq hd :)
      have hlength : d.line.arrived.length = seg.sn.toNat := by
        rw [hnext.1, hnxt]
      have hearly : d.line.early = (d.line.arrived.length, seg.piece) ::
          buf.map Seg.place := by
        rw [hlength, Direction.early_eq (seg :: buf) (by rw [hd]; rfl)]
        rfl
      have hstep := Step.advance d.line seg.piece _ hearly
      let d' : Direction := { d with receiving := Kcpcb.receiving { kcp with
        rcvQueue := kcp.rcvQueue ++ [seg]
        rcvNxt := kcp.rcvNxt + 1
        rcvBuf := buf } }
      have hline : d'.line = { d.line with
          arrived := d.line.arrived ++ [seg.piece]
          early := buf.map Seg.place } := by
        have hearly' : d'.line.early = buf.map Seg.place := Direction.early_eq buf rfl
        rw [← hearly']
        simp [d', Direction.line, hd, Kcpcb.receiving]
      have hstep' : Step d.line d'.line := by
        rw [hline]
        exact hstep
      have hroom := h.arrived_lt
      have hok : d'.Ok := { h with
        sound := h.sound.step hstep'
        rcvNxt := by
          rw [hline, List.length_append, List.length_singleton]
          show (kcp.rcvNxt + 1).toNat = _
          rw [UInt32.toNat_add, hnxt]
          exact Nat.mod_eq_of_lt (by simp; omega)
        acks := fun sn hsn => hstep'.has (h.acks sn (by rw [hd]; exact hsn)) }
      exact Goes.trans ⟨hok, .single hstep'⟩ (ih _ hok rfl)
    · rw [← hd]
      exact h.goes

/-- Where a segment is put that is not there yet; `rank` is the order of the numbers. -/
theorem insertFromEnd_some {newseg : Seg} {l l' : List Seg} (rank : UInt32 → ℕ)
    (h : insertFromEnd newseg l = some l') (hsorted : l.Pairwise fun p q => rank q.sn < rank p.sn)
    (hrank : ∀ seg ∈ l, itimediff newseg.sn seg.sn = (rank newseg.sn : ℤ) - rank seg.sn)
    (hinj : ∀ seg ∈ l, rank seg.sn = rank newseg.sn → seg.sn = newseg.sn) :
    ∃ back front, l = back ++ front ∧ l' = back ++ newseg :: front ∧
      (∀ seg ∈ back, rank newseg.sn < rank seg.sn) ∧ ∀ seg ∈ front, rank seg.sn < rank newseg.sn := by
  induction l generalizing l' with
  | nil =>
    obtain rfl := Option.some.inj h
    exact ⟨[], [], rfl, rfl, by simp, by simp⟩
  | cons seg front ih =>
    rw [List.forall_mem_cons] at hrank hinj
    rw [List.pairwise_cons] at hsorted
    rw [insertFromEnd] at h
    split at h
    · cases h
    · rename_i hne
      have hdiff := hrank.1
      have hne' : rank seg.sn ≠ rank newseg.sn := fun heq => hne (hinj.1 heq)
      split at h
      · obtain rfl := Option.some.inj h
        refine ⟨[], seg :: front, rfl, rfl, by simp, fun p hp => ?_⟩
        rcases List.mem_cons.mp hp with rfl | hp
        · omega
        · have hlt := hsorted.1 p hp
          omega
      · obtain ⟨l'', hrest, rfl⟩ := Option.map_eq_some_iff.mp h
        obtain ⟨back, front', rfl, rfl, hback, hfront⟩ := ih hrest hsorted.2 hrank.2 hinj.2
        refine ⟨seg :: back, front', rfl, rfl, fun p hp => ?_, hfront⟩
        rcases List.mem_cons.mp hp with rfl | hp
        · omega
        · exact hback p hp

/-- The same in the order of the buffer. -/
theorem insertFromEnd_split {newseg : Seg} {buf l : List Seg} (rank : UInt32 → ℕ)
    (h : insertFromEnd newseg buf.reverse = some l)
    (hsorted : buf.Pairwise fun p q => rank p.sn < rank q.sn)
    (hrank : ∀ seg ∈ buf, itimediff newseg.sn seg.sn = (rank newseg.sn : ℤ) - rank seg.sn)
    (hinj : ∀ seg ∈ buf, rank seg.sn = rank newseg.sn → seg.sn = newseg.sn) :
    ∃ front back, buf = front ++ back ∧ l.reverse = front ++ newseg :: back ∧
      (∀ seg ∈ front, rank seg.sn < rank newseg.sn) ∧ ∀ seg ∈ back, rank newseg.sn < rank seg.sn := by
  obtain ⟨back, front, hreverse, rfl, hback, hfront⟩ := insertFromEnd_some rank h
    (List.pairwise_reverse.mpr hsorted) (fun p hp => hrank p (List.mem_reverse.mp hp))
    fun p hp => hinj p (List.mem_reverse.mp hp)
  refine ⟨front.reverse, back.reverse, ?_, by simp, fun p hp => hfront p (List.mem_reverse.mp hp),
    fun p hp => hback p (List.mem_reverse.mp hp)⟩
  rw [← List.reverse_append, ← hreverse, List.reverse_reverse]

theorem insertFromEnd_none {newseg : Seg} {l : List Seg} (h : insertFromEnd newseg l = none) :
    ∃ seg ∈ l, seg.sn = newseg.sn := by
  induction l with
  | nil => cases h
  | cons seg front ih =>
    rw [insertFromEnd] at h
    split at h
    · exact ⟨seg, List.mem_cons_self, ‹_›⟩
    · split at h
      · cases h
      · obtain ⟨p, hp, heq⟩ := ih (Option.map_eq_none_iff.mp h)
        exact ⟨p, List.mem_cons_of_mem seg hp, heq⟩

/-- A new piece is put in its place. -/
theorem Direction.Ok.keep (h : d.Ok) (hd : d.receiving = kcp.receiving) {front back : List Seg}
    (hbuf : kcp.rcvBuf = front ++ back) (hfront : ∀ p ∈ front, p.sn.toNat < seg.sn.toNat)
    (hback : ∀ p ∈ back, seg.sn.toNat < p.sn.toNat) (hnext : d.line.arrived.length ≤ seg.sn.toNat)
    (hseg : d.log[seg.sn.toNat]? = some seg.piece) :
    Goes d { d with receiving := { kcp with rcvBuf := front ++ seg :: back }.receiving } := by
  have hearly : d.line.early = front.map Seg.place ++ back.map Seg.place := by
    rw [Direction.early_eq kcp.rcvBuf (congrArg Receiving.rcvBuf hd), hbuf, List.map_append]
  have hplaces : ∀ {l : List Seg} {r : ℕ → Prop}, (∀ p ∈ l, r p.sn.toNat) →
      ∀ p ∈ l.map Seg.place, r p.1 := by
    intro l r hl p hp
    obtain ⟨q, hq, rfl⟩ := List.mem_map.mp hp
    exact hl q hq
  have hstep := Step.keep d.line _ _ seg.sn.toNat seg.piece hearly
    (hplaces (r := (· < seg.sn.toNat)) hfront) (hplaces (r := (seg.sn.toNat < ·)) hback) hnext hseg
  let d' : Direction := { d with receiving := { kcp with rcvBuf := front ++ seg :: back }.receiving }
  have hline : d'.line = { d.line with
      early := front.map Seg.place ++ seg.place :: back.map Seg.place } := by
    have hearly' : d'.line.early = _ :=
      Direction.early_eq (front ++ seg :: back) rfl
    rw [List.map_append, List.map_cons] at hearly'
    rw [← hearly', Direction.line, Direction.line, hd]
    rfl
  have hstep' : Step d.line d'.line := by
    rw [hline]
    exact hstep
  refine ⟨?_, .single hstep'⟩
  exact { h with
    sound := h.sound.step hstep'
    rcvNxt := by
      show kcp.rcvNxt.toNat = d'.line.arrived.length
      rw [hline]
      refine Eq.trans ?_ h.rcvNxt
      rw [hd]
      rfl
    acks := fun sn hsn => hstep'.has (h.acks sn (by rw [hd]; exact hsn)) }

/-- A piece that was sent arrives: it is put in its place, or it is there. -/
theorem parseData_goes (h : d.Ok) (hd : d.receiving = kcp.receiving)
    (hseg : d.log[seg.sn.toNat]? = some seg.piece) :
    Goes d { d with receiving := (parseData kcp seg).receiving } ∧
      (itimediff seg.sn (kcp.rcvNxt + kcp.rcvWnd) < 0 → 0 ≤ itimediff seg.sn kcp.rcvNxt →
        ({ d with receiving := (parseData kcp seg).receiving } : Direction).line.Has seg.sn.toNat) := by
  have hsn := h.number_lt hseg
  unfold parseData
  split
  · rename_i hout
    refine ⟨hd ▸ h.goes, fun hwindow hnext => ?_⟩
    omega
  · rename_i hin
    have hnext : d.line.arrived.length ≤ seg.sn.toNat := by
      have hdiff := h.itimediff_rcvNxt hd hseg
      omega
    have hbuf : ∀ p ∈ kcp.rcvBuf, p.sn.toNat < 2 ^ 31 := by
      intro p hp
      refine h.early_lt (p := (p.sn, p.piece)) ?_
      rw [hd]
      exact List.mem_map_of_mem hp
    split
    · rename_i buf hsome
      have hsorted := h.sound.sorted
      rw [Direction.early_eq kcp.rcvBuf (congrArg Receiving.rcvBuf hd), List.pairwise_map] at hsorted
      obtain ⟨front, back, hsplit, hplaced, hfront, hback⟩ :=
        insertFromEnd_split UInt32.toNat hsome hsorted (fun p hp => itimediff_eq hsn (hbuf p hp))
          fun p _ heq => UInt32.toNat_inj.mp heq
      have hkeep := h.keep hd hsplit hfront hback hnext hseg
      rw [hplaced]
      have hmove := moveAvailable_goes kcp hkeep.1 rfl
      refine ⟨hkeep.trans hmove, fun _ _ => ?_⟩
      refine Packet.True.steps (p := .got seg.sn.toNat) (.inr ⟨seg.piece, ?_⟩) hmove.2
      rw [Direction.early_eq (front ++ seg :: back) rfl]
      exact List.mem_map_of_mem (f := Seg.place) (by simp)
    · rename_i hnone
      obtain ⟨p, hp, heq⟩ := insertFromEnd_none hnone
      have hmove := moveAvailable_goes kcp h hd
      refine ⟨hmove, fun _ _ => ?_⟩
      refine Packet.True.steps (p := .got seg.sn.toNat) (.inr ⟨p.piece, ?_⟩) hmove.2
      rw [Direction.early_eq kcp.rcvBuf (congrArg Receiving.rcvBuf hd), ← heq]
      exact List.mem_map_of_mem (f := Seg.place) (List.mem_reverse.mp hp)

/-! ## A datagram that comes in -/

theorem moveAvailable_ackPush (kcp : Kcpcb) (buf : List Seg) (sn ts : UInt32) :
    moveAvailable (ackPush kcp sn ts) buf = ackPush (moveAvailable kcp buf) sn ts := by
  induction buf generalizing kcp with
  | nil => rfl
  | cons seg buf ih =>
    rw [moveAvailable_cons, moveAvailable_cons]
    show (if seg.sn = kcp.rcvNxt ∧ kcp.nrcvQue < kcp.rcvWnd then _ else _) = _
    split
    · exact ih { kcp with rcvQueue := kcp.rcvQueue ++ [seg], rcvNxt := kcp.rcvNxt + 1 }
    · rfl

theorem parseData_ackPush (kcp : Kcpcb) (seg : Seg) (sn ts : UInt32) :
    parseData (ackPush kcp sn ts) seg = ackPush (parseData kcp seg) sn ts := by
  unfold parseData
  show (if 0 ≤ itimediff seg.sn (kcp.rcvNxt + kcp.rcvWnd) ∨ itimediff seg.sn kcp.rcvNxt < 0 then _
    else _) = _
  split
  · rfl
  · have hsame : (ackPush kcp sn ts).rcvBuf = kcp.rcvBuf := rfl
    rw [hsame]
    cases insertFromEnd seg kcp.rcvBuf.reverse with
    | none | some buf => exact moveAvailable_ackPush _ _ _ _

/-- The side that receives changes without a step of the line. -/
theorem Direction.Ok.stay (h : d.Ok) {r : Receiving} {consumed : List Piece}
    (hline : ({ d with receiving := r, consumed := consumed } : Direction).line = d.line)
    (hnxt : r.rcvNxt = d.receiving.rcvNxt) (hacks : ∀ sn ∈ r.acks, d.line.Has sn.toNat) :
    Goes d { d with receiving := r, consumed := consumed } := by
  refine ⟨?_, by rw [hline]⟩
  exact { h with
    sound := by
      rw [hline]
      exact h.sound
    rcvNxt := by
      rw [hline, ← h.rcvNxt]
      exact congrArg UInt32.toNat hnxt
    acks := by
      rw [hline]
      exact hacks }

/-- What has arrived may be acknowledged. -/
theorem Direction.Ok.ack (h : d.Ok) (hd : d.receiving = kcp.receiving) (hhas : d.line.Has sn.toNat)
    (ts : UInt32) : Goes d { d with receiving := (ackPush kcp sn ts).receiving } := by
  refine h.stay ?_ (by rw [hd]; rfl) fun sn' hsn' => ?_
  · rw [Direction.line, Direction.line, hd]
    rfl
  · have hacks : sn' ∈ d.receiving.acks ++ [sn] := by
      rw [hd]
      simpa [Kcpcb.receiving, ackPush] using hsn'
    rcases List.mem_append.mp hacks with hold | hnew
    · exact h.acks sn' hold
    · rw [List.mem_singleton.mp hnew]
      exact hhas

theorem inputPush_goes (h : d.Ok) (hd : d.receiving = kcp.receiving)
    (hseg : d.log[seg.sn.toNat]? = some seg.piece) :
    Goes d { d with receiving := (inputPush kcp seg).receiving } := by
  unfold inputPush
  split
  · rename_i hwindow
    simp only
    split
    · rename_i hnext
      rw [parseData_ackPush]
      obtain ⟨hgoes, hhas⟩ := parseData_goes h hd hseg
      exact hgoes.trans (hgoes.1.ack rfl (hhas hwindow hnext) seg.ts)
    · rename_i hold
      refine h.ack hd (.inl ?_) seg.ts
      have hdiff := h.itimediff_rcvNxt hd hseg
      have hlt : itimediff seg.sn kcp.rcvNxt < 0 := not_le.mp hold
      omega
  · rw [← hd]
    exact h.goes

/-- What a segment of a peer says is true, of the direction in which the peer sends and of the other. -/
structure Told (own other : Line Piece) (seg : Seg) : Prop where
  una : (Packet.upTo seg.una.toNat).True other
  push : seg.cmd = .push → (Packet.piece seg.sn.toNat seg.piece).True own ∧ seg.frg.toNat < 128
  ack : seg.cmd = .ack → (Packet.got seg.sn.toNat).True other

theorem Told.steps {own own' other other' : Line Piece} (h : Told own other seg)
    (hown : Steps own own') (hother : Steps other other') : Told own' other' seg where
  una := h.una.steps hother
  push := fun hcmd => ⟨(h.push hcmd).1.steps hown, (h.push hcmd).2⟩
  ack := fun hcmd => (h.ack hcmd).steps hother

theorem Told.wire {own other : Line Piece} (h : Told own other seg) : Told own other seg.wire where
  una := h.una
  push := by
    intro hcmd
    obtain ⟨hpiece, hfrg⟩ := h.push hcmd
    have hsame : seg.wire.frg = seg.frg := by
      refine UInt32.toNat_inj.mp ?_
      show seg.frg.toUInt8.toUInt32.toNat = _
      rw [UInt8.toNat_toUInt32, UInt32.toNat_toUInt8]
      omega
    refine ⟨?_, hsame ▸ hfrg⟩
    rw [show seg.wire.piece = seg.piece from Prod.ext hsame rfl]
    exact hpiece
  ack := h.ack

variable {toX fromX : Direction} {x : Kcpcb}

theorem inputSeg_receiving_goes (maxack : Option UInt32) (h : toX.Ok) (hr : toX.receiving = x.receiving)
    (hseg : seg.cmd = .push → toX.log[seg.sn.toNat]? = some seg.piece) :
    Goes toX { toX with receiving := (inputSeg x maxack seg).1.receiving } := by
  unfold inputSeg
  cases hcmd : seg.cmd with
  | ack =>
    show Goes toX { toX with receiving := (parseAck (takeRtt _ seg.ts) seg.sn).receiving }
    rw [parseAck_receiving, takeRtt_receiving]
    show Goes toX { toX with receiving := x.receiving }
    rw [← hr]
    exact h.goes
  | push => exact inputPush_goes h hr (hseg hcmd)
  | wask | wins =>
    show Goes toX { toX with receiving := x.receiving }
    rw [← hr]
    exact h.goes

theorem inputSeg_sending_goes (maxack : Option UInt32) (h : fromX.Ok) (hs : fromX.sending = x.sending)
    (huna : (Packet.upTo seg.una.toNat).True fromX.line)
    (hack : seg.cmd = .ack → (Packet.got seg.sn.toNat).True fromX.line) :
    Goes fromX { fromX with sending := (inputSeg x maxack seg).1.sending } := by
  have huna' : fromX.sending.Releases (parseUna x seg.una).sending
      (0 < itimediff seg.una ·) := hs ▸ parseUna_releases x fun _ hsn => hsn
  have hfirst := h.releases huna' fun l hl hpos => by
    have harrived := h.arrived_lt
    have hle : seg.una.toNat ≤ fromX.line.arrived.length := huna
    rw [itimediff_eq (Nat.lt_of_le_of_lt hle harrived) (h.held_lt hl)] at hpos
    exact .inl (by omega)
  unfold inputSeg
  cases hcmd : seg.cmd with
  | ack =>
    have hhas : (Packet.got seg.sn.toNat).True _ := (hack hcmd).steps hfirst.2
    let x' := takeRtt (shrinkBuf (parseUna { x with rmtWnd := seg.wnd } seg.una)) seg.ts
    have hack' : x'.sending.Releases (parseAck x' seg.sn).sending (· = seg.sn) :=
      parseAck_releases x' rfl
    rw [takeRtt_sending] at hack'
    exact hfirst.trans (hfirst.1.releases hack' fun l _ heq => heq ▸ hhas)
  | push =>
    show Goes fromX { fromX with sending := (inputPush _ seg).sending }
    rw [inputPush_sending]
    exact hfirst
  | wask | wins => exact hfirst

theorem inputAll_goes (maxack : Option UInt32) {segs : List Seg} (hto : toX.Ok)
    (hfrom : fromX.Ok) (hr : toX.receiving = x.receiving) (hs : fromX.sending = x.sending)
    (hsegs : ∀ seg ∈ segs, Told toX.line fromX.line seg) :
    Goes toX { toX with receiving := (inputAll x maxack segs).1.receiving } ∧
      Goes fromX { fromX with sending := (inputAll x maxack segs).1.sending } := by
  induction segs generalizing x maxack toX fromX with
  | nil =>
    rw [inputAll, ← hr, ← hs]
    exact ⟨hto.goes, hfrom.goes⟩
  | cons seg segs ih =>
    have hseg := (hsegs seg List.mem_cons_self).wire
    have hto' := inputSeg_receiving_goes maxack hto hr fun hcmd => (hseg.push hcmd).1
    have hfrom' := inputSeg_sending_goes maxack hfrom hs hseg.una hseg.ack
    obtain ⟨hto'', hfrom''⟩ := ih (inputSeg x maxack seg.wire).2 hto'.1 hfrom'.1 rfl rfl
      fun seg' hseg' => (hsegs seg' (List.mem_cons_of_mem seg hseg')).steps hto'.2 hfrom'.2
    exact ⟨hto'.trans hto'', hfrom'.trans hfrom''⟩

theorem growWindow_sending (kcp : Kcpcb) : (growWindow kcp).sending = kcp.sending := by
  unfold growWindow
  split <;> rfl

theorem growWindow_receiving (kcp : Kcpcb) : (growWindow kcp).receiving = kcp.receiving := by
  unfold growWindow
  split <;> rfl

theorem parseAck_sndQueue (kcp : Kcpcb) (sn : UInt32) :
    (parseAck kcp sn).sending.sndQueue = kcp.sending.sndQueue := by
  unfold parseAck
  split <;> rfl

theorem inputSeg_sndQueue (x : Kcpcb) (maxack : Option UInt32) (seg : Seg) :
    (inputSeg x maxack seg).1.sending.sndQueue = x.sending.sndQueue := by
  unfold inputSeg
  cases seg.cmd with
  | ack =>
    show (parseAck (takeRtt _ seg.ts) seg.sn).sending.sndQueue = _
    rw [parseAck_sndQueue, takeRtt_sending]
    rfl
  | push =>
    show (inputPush _ seg).sending.sndQueue = _
    rw [inputPush_sending]
    rfl
  | wask | wins => rfl

theorem inputAll_sndQueue (x : Kcpcb) (maxack : Option UInt32) (segs : List Seg) :
    (inputAll x maxack segs).1.sending.sndQueue = x.sending.sndQueue := by
  induction segs generalizing x maxack with
  | nil => rfl
  | cons seg segs ih =>
    rw [inputAll, ih]
    exact inputSeg_sndQueue x maxack _

@[simp] theorem openWindow_sending (kcp : Kcpcb) : (openWindow kcp).sending = kcp.sending := by
  unfold openWindow
  split
  · simp only
    split <;> exact growWindow_sending kcp
  · rfl

@[simp] theorem openWindow_receiving (kcp : Kcpcb) : (openWindow kcp).receiving = kcp.receiving := by
  unfold openWindow
  split
  · simp only
    split <;> exact growWindow_receiving kcp
  · rfl

/-- A datagram of the peer is taken, whenever it comes. -/
theorem input_goes {datagram : Bytes} (hto : toX.Ok) (hfrom : fromX.Ok)
    (hr : toX.receiving = x.receiving) (hs : fromX.sending = x.sending)
    (h : Carries x.conv (Told toX.line fromX.line) datagram) :
    Goes toX { toX with receiving := (input x datagram).1.receiving } ∧
      Goes fromX { fromX with sending := (input x datagram).1.sending } ∧
      (input x datagram).1.sending.sndQueue = x.sending.sndQueue ∧ (input x datagram).2 = 0 := by
  obtain ⟨segs, hne, rfl, hsegs⟩ := h
  have hall := inputAll_goes none hto hfrom hr hs fun seg hseg => (hsegs seg hseg).2.2
  have hread := inputSegs_flatMap x none fun seg hseg =>
    ⟨(hsegs seg hseg).1, (hsegs seg hseg).2.1⟩
  have hlong : ¬ (segs.flatMap encodeSeg).length < 24 := by
    obtain ⟨seg, rest, rfl⟩ := List.exists_cons_of_ne_nil hne
    rw [List.flatMap_cons, List.length_append, length_encodeSeg]
    omega
  unfold input
  rw [if_neg hlong, hread]
  refine ⟨?_, ?_, ?_, rfl⟩
  · cases (inputAll x none segs).2 <;> simp only <;> split <;> simpa using hall.1
  · cases (inputAll x none segs).2 <;> simp only <;> split <;> simpa using hall.2
  · cases (inputAll x none segs).2 <;> simp only <;> split <;> simp [inputAll_sndQueue]

end CServer.Kcp
