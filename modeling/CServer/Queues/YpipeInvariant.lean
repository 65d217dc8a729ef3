import CServer.Foundation.Blocks
import CServer.Foundation.Ownership
import CServer.Queues.Ypipe

/-!
# What holds in every state of the pipe

The chunks from the one of the reader to the one of the end are linked both ways and hold the
elements that were not read. Each other chunk that is allocated is the spare one or in the hand of
one thread.
-/
namespace CServer.Queues.Ypipe

open CServer.Blocks

variable {E : Type} {N base x : ℕ} {blocks : List ℕ} {heap heap' : Heap E} {written : List E}
  {s : System E} {wh : Option ℕ}

def nextOf (heap : Heap E) (a : ℕ) : Option ℕ := (heap a).bind Chunk.next

def prevOf (heap : Heap E) (a : ℕ) : Option ℕ := (heap a).bind Chunk.prev

def valuesOf (heap : Heap E) (a : ℕ) : Option (ℕ → E) := (heap a).map Chunk.values

def valueAt (heap : Heap E) (p : Slot) : Option E := (valuesOf heap p.1).map fun values => values p.2

/-- The chunks from number `base` on are linked both ways, and the elements from number `t` on are
in their places. -/
structure Chunks (N : ℕ) (heap : Heap E) (base : ℕ) (blocks : List ℕ) (written : List E) (t : ℕ) :
    Prop where
  next : ∀ i a b, base ≤ i → blocks[i]? = some a → blocks[i + 1]? = some b → nextOf heap a = some b
  prev : ∀ i a b, base ≤ i → blocks[i]? = some a → blocks[i + 1]? = some b → prevOf heap b = some a
  values : ∀ i v p, t ≤ i → written[i]? = some v → place N blocks i = some p →
    valueAt heap p = some v

/-- The chunk that the reader has taken out of the queue. -/
def readerHand : Reader E → List ℕ
  | .clearPrev _ o | .giveSpare _ o => [o]
  | .free _ cs => cs.toList
  | _ => []

/-- The chunks that are allocated. -/
def owned (s : System E) (base : ℕ) (blocks : List ℕ) (wh : Option ℕ) : List ℕ :=
  blocks.drop base ++ (s.spareChunk.toList ++ (wh.toList ++ readerHand s.reader))

/-- Between two calls the terminator is at the back, and there is one more place. -/
structure Rest (N : ℕ) (s : System E) (blocks : List ℕ) : Prop where
  back : place N blocks s.written.length = some s.back
  last : place N blocks (s.written.length + 1) = some (s.endChunk, s.endPos)
  length : blocks.length = (s.written.length + 1) / N + 1

/-- In `push` the last chunk is full. -/
structure Full (N : ℕ) (s : System E) (blocks : List ℕ) : Prop where
  back : place N blocks s.written.length = some s.back
  last : blocks[s.written.length / N]? = some s.endChunk
  length : s.written.length + 1 = N * blocks.length

/-- In `unpush` the back is at the last element. -/
structure Retreat (N : ℕ) (s : System E) (blocks : List ℕ) : Prop where
  incomplete : s.complete < s.written.length
  back : place N blocks (s.written.length - 1) = some s.back

/-- What the writer relies on. -/
def WriterAt (N : ℕ) (s : System E) (blocks : List ℕ) (wh : Option ℕ) : Writer E → Prop
  | .takeSpare _ | .malloc _ => Full N s blocks ∧ wh = none
  | .setNext sc _ | .setNextNew sc _ => Full N s blocks ∧ wh = some sc
  | .setPrev sc _ => Full N s blocks ∧ wh = some sc ∧ nextOf s.heap s.endChunk = some sc
  | .setPrevNew _ => Full N s blocks ∧ ∃ sc, wh = some sc ∧ nextOf s.heap s.endChunk = some sc
  | .moveEnd _ => Full N s blocks ∧ ∃ sc, wh = some sc ∧ nextOf s.heap s.endChunk = some sc ∧
      prevOf s.heap sc = some s.endChunk
  | .backPrev => Rest N s blocks ∧ wh = none ∧ s.complete < s.written.length ∧ s.backPos = 0
  | .endPrev => Retreat N s blocks ∧ wh = none ∧ s.endPos = 0 ∧
      place N blocks (s.written.length + 1) = some (s.endChunk, s.endPos) ∧
      blocks.length = (s.written.length + 1) / N + 1
  | .free => Retreat N s blocks ∧ wh = none ∧
      place N blocks s.written.length = some (s.endChunk, s.endPos) ∧
      blocks.length = s.written.length / N + 2
  | .clearNext | .fetch => Retreat N s blocks ∧ wh = none ∧
      place N blocks s.written.length = some (s.endChunk, s.endPos) ∧
      blocks.length = s.written.length / N + 1
  | .set => Rest N s blocks ∧ wh = none ∧ s.asleep = true
  | _ => Rest N s blocks ∧ wh = none

/-- What the reader relies on; it may read up to element number `x`. -/
def ReaderAt (N : ℕ) (s : System E) (base : ℕ) (blocks : List ℕ) (x : ℕ) : Reader E → Prop
  | .moveBegin _ => s.taken.length = N * (base + 1) ∧ blocks[base]? = some s.beginChunk
  | .clearPrev _ _ => s.taken.length = N * base ∧ blocks[base]? = some s.beginChunk
  | .fetch => base = s.taken.length / N ∧ place N blocks s.taken.length = some s.front ∧
      s.taken.length < x
  | _ => base = s.taken.length / N ∧ place N blocks s.taken.length = some s.front

/-- The shape of a state: its chunks, the number of those that were given up, the element up to
which the reader may read, and the chunk in the hand of the writer. -/
structure Shape (N : ℕ) (s : System E) (base : ℕ) (blocks : List ℕ) (x : ℕ) (wh : Option ℕ) :
    Prop where
  chunks : Chunks N s.heap base blocks s.written s.taken.length
  owns : Owns s.heap (owned s base blocks wh)
  writer : WriterAt N s blocks wh s.writer
  reader : ReaderAt N s base blocks x s.reader
  w : place N blocks s.flushed = some s.w
  f : place N blocks s.complete = some s.f
  r : ∀ p, s.r = some p → place N blocks x = some p
  c : s.c = if s.asleep then none else some s.w
  taken_le : s.taken.length ≤ x
  prefetched_le : x ≤ s.flushed
  flushed_le : s.flushed ≤ s.complete
  complete_le : s.complete ≤ s.written.length
  asleep : s.asleep = true → s.taken.length = s.flushed
  taken : s.taken = s.written.take s.taken.length

def Inv (N : ℕ) (s : System E) : Prop := ∃ base blocks x wh, Shape N s base blocks x wh

/-! ## The fields of a chunk -/

section Fields

variable {p a : ℕ} {chunk chunk' : Chunk E}

theorem nextOf_update_self : nextOf (Function.update heap p (some chunk)) p = chunk.next := by
  rw [nextOf, Function.update_self]
  rfl

theorem prevOf_update_self : prevOf (Function.update heap p (some chunk)) p = chunk.prev := by
  rw [prevOf, Function.update_self]
  rfl

theorem nextOf_update_of_ne {cell : Option (Chunk E)} (h : a ≠ p) :
    nextOf (Function.update heap p cell) a = nextOf heap a := by
  rw [nextOf, Function.update_of_ne h, nextOf]

theorem prevOf_update_of_ne {cell : Option (Chunk E)} (h : a ≠ p) :
    prevOf (Function.update heap p cell) a = prevOf heap a := by
  rw [prevOf, Function.update_of_ne h, prevOf]

theorem valuesOf_update_of_ne {cell : Option (Chunk E)} (h : a ≠ p) :
    valuesOf (Function.update heap p cell) a = valuesOf heap a := by
  rw [valuesOf, Function.update_of_ne h, valuesOf]

/-- A write that leaves `next` as it is. -/
theorem nextOf_update_same (hp : heap p = some chunk) (h : chunk'.next = chunk.next) :
    nextOf (Function.update heap p (some chunk')) a = nextOf heap a := by
  by_cases ha : a = p
  · rw [ha, nextOf_update_self, nextOf, hp, h]
    rfl
  · exact nextOf_update_of_ne ha

theorem prevOf_update_same (hp : heap p = some chunk) (h : chunk'.prev = chunk.prev) :
    prevOf (Function.update heap p (some chunk')) a = prevOf heap a := by
  by_cases ha : a = p
  · rw [ha, prevOf_update_self, prevOf, hp, h]
    rfl
  · exact prevOf_update_of_ne ha

theorem valuesOf_update_same (hp : heap p = some chunk) (h : chunk'.values = chunk.values) :
    valuesOf (Function.update heap p (some chunk')) a = valuesOf heap a := by
  by_cases ha : a = p
  · rw [ha, valuesOf, Function.update_self, valuesOf, hp, Option.map_some, Option.map_some, h]
  · exact valuesOf_update_of_ne ha

theorem exists_chunk_of_next {b : ℕ} (h : nextOf heap a = some b) :
    ∃ chunk, heap a = some chunk ∧ chunk.next = some b := Option.bind_eq_some_iff.mp h

theorem exists_chunk_of_prev {b : ℕ} (h : prevOf heap a = some b) :
    ∃ chunk, heap a = some chunk ∧ chunk.prev = some b := Option.bind_eq_some_iff.mp h

end Fields

/-! ## The chunks in the queue -/

theorem Chunks.congr {t : ℕ} (h : Chunks N heap base blocks written t) (ht : base ≤ t / N)
    (hnext : ∀ i a, base ≤ i → i + 1 < blocks.length → blocks[i]? = some a →
      nextOf heap' a = nextOf heap a)
    (hprev : ∀ i a, base ≤ i → blocks[i + 1]? = some a → prevOf heap' a = prevOf heap a)
    (hvalues : ∀ a ∈ blocks.drop base, valuesOf heap' a = valuesOf heap a) :
    Chunks N heap' base blocks written t where
  next i a b hi ha hb := by
    obtain ⟨hlt, -⟩ := List.getElem?_eq_some_iff.mp hb
    rw [hnext i a hi hlt ha]
    exact h.next i a b hi ha hb
  prev i a b hi ha hb := by
    rw [hprev i b hi hb]
    exact h.prev i a b hi ha hb
  values i v p hi hv hp := by
    have hlive : base ≤ i / N := ht.trans (Nat.div_le_div_right hi)
    rw [valueAt, hvalues p.1 (mem_drop_of_place hp hlive)]
    exact h.values i v p hi hv hp

/-- The reader goes on to a later element. -/
theorem Chunks.later {base' t t' : ℕ} (h : Chunks N heap base blocks written t)
    (hbase : base ≤ base') (ht : t ≤ t') : Chunks N heap base' blocks written t' where
  next i a b hi := h.next i a b (hbase.trans hi)
  prev i a b hi := h.prev i a b (hbase.trans hi)
  values i v p hi := h.values i v p (ht.trans hi)

/-! ## What follows from the shape -/

theorem WriterAt.div_lt {point : Writer E} (h : WriterAt N s blocks wh point) :
    s.written.length / N < blocks.length := by
  have hrest : Rest N s blocks → s.written.length / N < blocks.length := fun h => div_lt_length h.back
  have hfull : Full N s blocks → s.written.length / N < blocks.length := fun h => div_lt_length h.back
  have hmono : s.written.length / N ≤ (s.written.length + 1) / N := Nat.div_le_div_right (by omega)
  cases point with
  | takeSpare | malloc | setNext | setNextNew | setPrev | setPrevNew | moveEnd => exact hfull h.1
  | endPrev =>
    obtain ⟨-, -, -, -, hlength⟩ := h
    omega
  | free | clearNext | fetch =>
    obtain ⟨-, -, -, hlength⟩ := h
    omega
  | idle | store | cas | set | done | backPrev => exact hrest h.1

/-- The writer relies on the same when only the reader has done something. -/
theorem WriterAt.transfer {s' : System E} {point : Writer E} (h : WriterAt N s blocks wh point)
    (hwritten : s'.written = s.written) (hback : s'.back = s.back) (hchunk : s'.endChunk = s.endChunk)
    (hpos : s'.endPos = s.endPos) (hcomplete : s'.complete = s.complete)
    (hasleep : s.asleep = true → s'.asleep = true)
    (hnext : nextOf s'.heap s.endChunk = nextOf s.heap s.endChunk)
    (hprev : ∀ sc, wh = some sc → prevOf s'.heap sc = prevOf s.heap sc) :
    WriterAt N s' blocks wh point := by
  have hrest : Rest N s blocks → Rest N s' blocks := by
    rintro ⟨hb, hl, hlength⟩
    exact ⟨by rw [hwritten, hback, hb], by rw [hwritten, hchunk, hpos, hl], by rw [hwritten, hlength]⟩
  have hfull : Full N s blocks → Full N s' blocks := by
    rintro ⟨hb, hl, hlength⟩
    exact ⟨by rw [hwritten, hback, hb], by rw [hwritten, hchunk, hl], by rw [hwritten, hlength]⟩
  have hretreat : Retreat N s blocks → Retreat N s' blocks := by
    rintro ⟨hi, hb⟩
    exact ⟨by rwa [hwritten, hcomplete], by rw [hwritten, hback, hb]⟩
  have hbackPos : s'.backPos = s.backPos := congrArg Prod.snd hback
  cases point with
  | takeSpare | malloc | setNext | setNextNew => exact ⟨hfull h.1, h.2⟩
  | setPrev sc =>
    obtain ⟨hf, hwh, hn⟩ := h
    exact ⟨hfull hf, hwh, by rw [hchunk, hnext, hn]⟩
  | setPrevNew =>
    obtain ⟨hf, sc, hwh, hn⟩ := h
    exact ⟨hfull hf, sc, hwh, by rw [hchunk, hnext, hn]⟩
  | moveEnd =>
    obtain ⟨hf, sc, hwh, hn, hp⟩ := h
    exact ⟨hfull hf, sc, hwh, by rw [hchunk, hnext, hn], by rw [hprev sc hwh, hchunk, hp]⟩
  | backPrev =>
    obtain ⟨hr, hwh, hc, hzero⟩ := h
    exact ⟨hrest hr, hwh, by rwa [hwritten, hcomplete], by rw [hbackPos, hzero]⟩
  | endPrev =>
    obtain ⟨hr, hwh, hzero, hl, hlength⟩ := h
    exact ⟨hretreat hr, hwh, by rw [hpos, hzero], by rw [hwritten, hchunk, hpos, hl],
      by rw [hwritten, hlength]⟩
  | free | clearNext | fetch =>
    obtain ⟨hr, hwh, hl, hlength⟩ := h
    exact ⟨hretreat hr, hwh, by rw [hwritten, hchunk, hpos, hl], by rw [hwritten, hlength]⟩
  | set =>
    obtain ⟨hr, hwh, ha⟩ := h
    exact ⟨hrest hr, hwh, hasleep ha⟩
  | idle | store | cas | done => exact ⟨hrest h.1, h.2⟩

/-- Each chunk with something to write or to read has a place. -/
theorem ReaderAt.base_le {point : Reader E} (h : ReaderAt N s base blocks x point) (hN : 0 < N) :
    base ≤ s.taken.length / N := by
  cases point with
  | moveBegin =>
    rw [h.1, Nat.mul_div_cancel_left _ hN]
    omega
  | clearPrev => rw [h.1, Nat.mul_div_cancel_left _ hN]
  | idle | cas | fetch | giveSpare | free | done => exact Nat.le_of_eq h.1

/-- The reader relies on the same when only the writer has done something, which leaves the
blocks up to element `x` alone. -/
theorem ReaderAt.transfer {s' : System E} {blocks' : List ℕ} {point : Reader E}
    (h : ReaderAt N s base blocks x point) (hN : 0 < N) (htaken : s'.taken = s.taken)
    (hfront : s'.front = s.front)
    (hblocks : ∀ i, i ≤ s.taken.length / N → blocks'[i]? = blocks[i]?) :
    ReaderAt N s' base blocks' x point := by
  have hbegin : s'.beginChunk = s.beginChunk := congrArg Prod.fst hfront
  have hplace : place N blocks' s.taken.length = place N blocks s.taken.length := by
    rw [place, place, hblocks _ (Nat.le_refl _)]
  have hbase := hblocks base (h.base_le hN)
  cases point with
  | moveBegin | clearPrev => exact ⟨by rw [htaken, h.1], by rw [hbase, hbegin, h.2]⟩
  | fetch => exact ⟨by rw [htaken, h.1], by rw [htaken, hplace, hfront, h.2.1], by rw [htaken]; exact h.2.2⟩
  | idle | cas | giveSpare | free | done =>
    exact ⟨by rw [htaken, h.1], by rw [htaken, hplace, hfront, h.2]⟩

theorem Shape.base_le (h : Shape N s base blocks x wh) (hN : 0 < N) : base ≤ s.taken.length / N :=
  h.reader.base_le hN

theorem Shape.taken_le_written (h : Shape N s base blocks x wh) : s.taken.length ≤ s.written.length :=
  h.taken_le.trans (h.prefetched_le.trans (h.flushed_le.trans h.complete_le))

theorem Shape.drop_nodup (h : Shape N s base blocks x wh) : (blocks.drop base).Nodup :=
  h.owns.append_left

/-- Two elements that are not read are not at the same place. -/
theorem Shape.place_unique (h : Shape N s base blocks x wh) (hN : 0 < N) {i j : ℕ} {p : Slot}
    (hi : s.taken.length ≤ i) (hj : s.taken.length ≤ j) (hp : place N blocks i = some p)
    (hq : place N blocks j = some p) : i = j :=
  Blocks.place_unique h.drop_nodup ((h.base_le hN).trans (Nat.div_le_div_right hi))
    ((h.base_le hN).trans (Nat.div_le_div_right hj)) hp hq

/-- The chunk of an element that is not read is allocated. -/
theorem Shape.mem_drop (h : Shape N s base blocks x wh) (hN : 0 < N) {i : ℕ} {p : Slot}
    (hi : s.taken.length ≤ i) (hp : place N blocks i = some p) : p.1 ∈ blocks.drop base :=
  mem_drop_of_place hp ((h.base_le hN).trans (Nat.div_le_div_right hi))

theorem Shape.mem_owned (h : Shape N s base blocks x wh) {a : ℕ} (ha : a ∈ blocks.drop base) :
    ∃ chunk, s.heap a = some chunk := h.owns.exists_of_mem (List.mem_append_left _ ha)

theorem mem_drop_of_getElem? {k : ℕ} {a : ℕ} (h : blocks[k]? = some a) (hk : base ≤ k) :
    a ∈ blocks.drop base := by
  rw [List.mem_iff_getElem?]
  exact ⟨k - base, by rw [List.getElem?_drop, Nat.add_sub_cancel' hk, h]⟩

/-- The chunk of the end is one of the queue. -/
theorem Shape.end_mem (h : Shape N s base blocks x wh) (hN : 0 < N) :
    s.endChunk ∈ blocks.drop base := by
  have hle := h.taken_le_written
  have hrest : Rest N s blocks → s.endChunk ∈ blocks.drop base :=
    fun hr => h.mem_drop hN (hle.trans (Nat.le_succ _)) hr.last
  have hfull : Full N s blocks → s.endChunk ∈ blocks.drop base := fun hf =>
    mem_drop_of_getElem? hf.last ((h.base_le hN).trans (Nat.div_le_div_right hle))
  have hw := h.writer
  cases hat : s.writer with
  | takeSpare | malloc | setNext | setNextNew | setPrev | setPrevNew | moveEnd =>
    rw [hat] at hw
    exact hfull hw.1
  | endPrev =>
    rw [hat] at hw
    exact h.mem_drop hN (hle.trans (Nat.le_succ _)) hw.2.2.2.1
  | free | clearNext | fetch =>
    rw [hat] at hw
    exact h.mem_drop hN hle hw.2.2.1
  | idle | store | cas | set | done | backPrev =>
    rw [hat] at hw
    exact hrest hw.1

end CServer.Queues.Ypipe
