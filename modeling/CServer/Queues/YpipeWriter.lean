import CServer.Queues.YpipeInvariant

/-!
# The steps of the writer
-/
namespace CServer.Queues.Ypipe

open CServer.Blocks

variable {E : Type} {N base x : ℕ} {blocks : List ℕ} {s : System E} {wh : Option ℕ}

/-- The writer goes on and changes nothing else. -/
theorem Shape.writerGo (h : Shape N s base blocks x wh) (hN : 0 < N) {point : Writer E}
    (hw : WriterAt N s blocks wh point) : Shape N { s with writer := point } base blocks x wh :=
  { h with
    owns := h.owns
    writer := hw.transfer rfl rfl rfl rfl rfl id rfl fun _ _ => rfl
    reader := h.reader.transfer hN rfl rfl fun _ _ => rfl }

/-! ## `write` -/

theorem finishWrite_eq (s : System E) (incomplete : Bool) : finishWrite s incomplete =
    { s with
      f := if incomplete then s.f else s.back
      complete := if incomplete then s.complete else s.written.length
      writer := .done true none } := by
  cases incomplete <;> rfl

theorem Shape.finishWrite (h : Shape N { s with writer := .idle } base blocks x none) (hN : 0 < N)
    (incomplete : Bool) : Shape N (finishWrite s incomplete) base blocks x none := by
  obtain ⟨⟨hback, hlast, hlength⟩, -⟩ := h.writer
  rw [finishWrite_eq]
  exact { h with
    owns := h.owns
    writer := ⟨⟨hback, hlast, hlength⟩, rfl⟩
    reader := h.reader.transfer hN rfl rfl fun _ _ => rfl
    f := by
      cases incomplete with
      | false => exact hback
      | true => exact h.f
    flushed_le := by
      cases incomplete with
      | false => exact h.flushed_le.trans h.complete_le
      | true => exact h.flushed_le
    complete_le := by
      cases incomplete with
      | false => exact Nat.le_refl _
      | true => exact h.complete_le }

theorem valueAt_store {heap : Heap E} {a pos : ℕ} {chunk : Chunk E} (ha : heap a = some chunk)
    (value : E) (p : Slot) : valueAt (Function.update heap a (some (chunk.store pos value))) p =
      if p = (a, pos) then some value else valueAt heap p := by
  obtain ⟨b, m⟩ := p
  by_cases hb : b = a
  · subst hb
    rw [valueAt, valuesOf, Function.update_self, valueAt, valuesOf, ha]
    by_cases hm : m = pos
    · rw [if_pos (by rw [hm]), hm]
      exact congrArg some (Function.update_self ..)
    · rw [if_neg (by simpa using hm)]
      exact congrArg some (Function.update_of_ne hm ..)
  · rw [if_neg (fun heq => hb (congrArg Prod.fst heq)), valueAt, valuesOf_update_of_ne hb, valueAt]

/-- The new element is stored in the place of the terminator. -/
theorem Chunks.store {heap : Heap E} {written : List E} {t : ℕ} {back : Slot} {chunk : Chunk E}
    (h : Chunks N heap base blocks written t) (hchunk : heap back.1 = some chunk)
    (hback : place N blocks written.length = some back)
    (hunique : ∀ i, t ≤ i → place N blocks i = some back → i = written.length) (value : E) :
    Chunks N (Function.update heap back.1 (some (chunk.store back.2 value))) base blocks
      (written ++ [value]) t where
  next i a b hi ha hb := by
    have hsame : nextOf (Function.update heap back.1 (some (chunk.store back.2 value))) a =
        nextOf heap a := nextOf_update_same hchunk rfl
    exact hsame.trans (h.next i a b hi ha hb)
  prev i a b hi ha hb := by
    have hsame : prevOf (Function.update heap back.1 (some (chunk.store back.2 value))) b =
        prevOf heap b := prevOf_update_same hchunk rfl
    exact hsame.trans (h.prev i a b hi ha hb)
  values i v p hi hv hp := by
    rw [valueAt_store hchunk]
    by_cases hlast : i = written.length
    · rw [hlast, List.getElem?_append_right (Nat.le_refl _), Nat.sub_self] at hv
      rw [hlast, hback] at hp
      rw [if_pos (Option.some.inj hp).symm]
      exact hv
    · obtain ⟨hlt, -⟩ := List.getElem?_eq_some_iff.mp hv
      rw [List.length_append, List.length_singleton] at hlt
      rw [List.getElem?_append_left (by omega)] at hv
      have hne : p ≠ back := by
        rintro rfl
        exact hlast (hunique i hi hp)
      rw [if_neg hne]
      exact h.values i v p hi hv hp

theorem Shape.writerStore (h : Shape N s base blocks x wh) (hN : 0 < N) {value : E}
    {incomplete : Bool} (hat : s.writer = .store value incomplete) :
    ∃ s', write N s (.store value incomplete) = some s' ∧ Inv N s' := by
  have hw := h.writer
  rw [hat] at hw
  obtain ⟨⟨hback, hlast, hlength⟩, rfl⟩ := hw
  have hle := h.taken_le_written
  obtain ⟨chunk, hchunk⟩ := h.mem_owned (h.mem_drop hN hle hback)
  have hbackChunk : s.heap s.backChunk = some chunk := hchunk
  have hlen : (s.written ++ [value]).length = s.written.length + 1 := by
    rw [List.length_append, List.length_singleton]
  obtain ⟨hend, hpos⟩ := place_eq_some.mp hlast
  have hin : s.endPos < N := hpos.symm.trans_lt (Nat.mod_lt _ hN)
  have hchunks := h.chunks.store hchunk hback (fun i hi hp => h.place_unique hN hi hle hp hback) value
  -- the state behind the store, with the back at the new terminator
  have hshape : ∀ point : Writer E,
      WriterAt N { s.setChunk s.backChunk (some (chunk.store s.backPos value)) with
        written := s.written ++ [value], backChunk := s.endChunk, backPos := s.endPos
        endPos := s.endPos + 1, writer := point } blocks none point →
      Shape N { s.setChunk s.backChunk (some (chunk.store s.backPos value)) with
        written := s.written ++ [value], backChunk := s.endChunk, backPos := s.endPos
        endPos := s.endPos + 1, writer := point } base blocks x none := by
    intro point hpoint
    exact { h with
      chunks := hchunks
      owns := h.owns.update (List.mem_append_left _ (h.mem_drop hN hle hback)) _
      writer := hpoint
      reader := h.reader.transfer hN rfl rfl fun _ _ => rfl
      complete_le := by rw [hlen]; exact h.complete_le.trans (Nat.le_succ _)
      taken := h.taken.trans (List.take_append_of_le_length hle).symm }
  have hfirst : place N blocks (s.written ++ [value]).length = some (s.endChunk, s.endPos) := by
    rw [hlen, hlast]
  by_cases hfull : s.endPos + 1 = N
  · have hwrite : write N s (.store value incomplete) =
        some { s.setChunk s.backChunk (some (chunk.store s.backPos value)) with
          written := s.written ++ [value]
          backChunk := s.endChunk
          backPos := s.endPos
          endPos := s.endPos + 1
          writer := .takeSpare incomplete } := by
      simp only [write, hbackChunk, Option.bind_eq_bind, Option.bind_some, hfull, ne_eq,
        not_true_eq_false, ↓reduceIte]
      rfl
    refine ⟨_, hwrite, base, blocks, x, none, hshape _ ⟨⟨hfirst, ?_, ?_⟩, rfl⟩⟩
    · rw [hlen]
      exact hend
    · have hdecomp := Nat.div_add_mod (s.written.length + 1) N
      rw [hlen, hlength, Nat.mul_add]
      omega
  · have hwrite : write N s (.store value incomplete) =
        some (Ypipe.finishWrite { s.setChunk s.backChunk (some (chunk.store s.backPos value)) with
          written := s.written ++ [value]
          backChunk := s.endChunk
          backPos := s.endPos
          endPos := s.endPos + 1 } incomplete) := by
      simp only [write, hbackChunk, Option.bind_eq_bind, Option.bind_some, hfull, ne_eq,
        not_false_eq_true, ↓reduceIte]
      rfl
    have hinner : (s.written.length + 1) % N + 1 < N := by omega
    refine ⟨_, hwrite, base, blocks, x, none, Shape.finishWrite (hshape .idle ?_) hN incomplete⟩
    refine ⟨⟨hfirst, ?_, ?_⟩, rfl⟩
    · rw [hlen]
      exact place_succ hlast (show s.endPos + 1 < N by omega)
    · rw [hlen, div_succ_of_inner hinner, hlength]

theorem Shape.writerTakeSpare (h : Shape N s base blocks x wh) (hN : 0 < N) {incomplete : Bool}
    (hat : s.writer = .takeSpare incomplete) :
    ∃ s', write N s (.takeSpare incomplete) = some s' ∧ Inv N s' := by
  have hw := h.writer
  have howns := h.owns
  rw [hat] at hw
  obtain ⟨hfull, rfl⟩ := hw
  rw [owned] at howns
  cases hspare : s.spareChunk with
  | none =>
    have hwrite : write N s (.takeSpare incomplete) =
        some { s with spareChunk := none, writer := .malloc incomplete } := by
      simp only [write, hspare]
    refine ⟨_, hwrite, base, blocks, x, none, ?_⟩
    exact { h with
      owns := by
        rw [hspare] at howns
        exact howns
      writer := ⟨⟨hfull.back, hfull.last, hfull.length⟩, rfl⟩
      reader := h.reader.transfer hN rfl rfl fun _ _ => rfl }
  | some sc =>
    have hwrite : write N s (.takeSpare incomplete) =
        some { s with spareChunk := none, writer := .setNext sc incomplete } := by
      simp only [write, hspare]
    refine ⟨_, hwrite, base, blocks, x, some sc, ?_⟩
    exact { h with
      owns := by
        rw [hspare] at howns
        exact howns
      writer := ⟨⟨hfull.back, hfull.last, hfull.length⟩, rfl⟩
      reader := h.reader.transfer hN rfl rfl fun _ _ => rfl }

/-- A new chunk is in no hand yet. -/
theorem Shape.malloc (h : Shape N s base blocks x wh) (hN : 0 < N) {incomplete : Bool} {p : ℕ}
    (hat : s.writer = .malloc incomplete) (hfree : s.heap p = none) (chunk : Chunk E) :
    Inv N { s.setChunk p (some chunk) with writer := .setNextNew p incomplete } := by
  have hw := h.writer
  rw [hat] at hw
  obtain ⟨hfull, rfl⟩ := hw
  have hnot : ∀ a ∈ blocks.drop base, a ≠ p := by
    rintro a ha rfl
    exact h.owns.notMem_of_none hfree (List.mem_append_left _ ha)
  refine ⟨base, blocks, x, some p, ?_⟩
  exact { h with
    chunks := by
      refine h.chunks.congr (h.base_le hN) ?_ ?_ ?_
      · intro i a hi _ ha
        exact nextOf_update_of_ne (hnot a (mem_drop_of_getElem? ha hi))
      · intro i a hi ha
        exact prevOf_update_of_ne (hnot a (mem_drop_of_getElem? ha (hi.trans (Nat.le_succ i))))
      · intro a ha
        exact valuesOf_update_of_ne (hnot a ha)
    owns := by
      refine (h.owns.acquire hfree chunk).of_perm ?_
      simp only [owned, Option.toList_none, Option.toList_some, List.nil_append]
      rw [← List.append_assoc, ← List.append_assoc]
      exact List.perm_middle.symm
    writer := ⟨⟨hfull.back, hfull.last, hfull.length⟩, rfl⟩
    reader := h.reader.transfer hN rfl rfl fun _ _ => rfl }

/-- The number of the last chunk. -/
theorem Full.number (h : Full N s blocks) (hN : 0 < N) : s.written.length / N + 1 = blocks.length := by
  have hle : 1 ≤ blocks.length := by
    rcases Nat.eq_zero_or_pos blocks.length with hzero | hpos
    · have := h.length
      rw [hzero, Nat.mul_zero] at this
      omega
    · exact hpos
  have hdecomp : s.written.length = N * (blocks.length - 1) + (N - 1) := by
    have hmul : N * blocks.length = N * (blocks.length - 1) + N := by
      rw [← Nat.mul_succ, Nat.succ_eq_add_one, Nat.sub_add_cancel hle]
    have := h.length
    omega
  rw [hdecomp, Nat.mul_add_div hN, Nat.div_eq_of_lt (by omega)]
  omega

/-- The link of the last chunk is not one of the queue. -/
theorem Shape.setNext (h : Shape N s base blocks x wh) (hN : 0 < N) {k : ℕ} {chunk : Chunk E}
    (hlast : blocks[k]? = some s.endChunk) (hk : k + 1 = blocks.length) (hbase : base ≤ k)
    (hchunk : s.heap s.endChunk = some chunk) (next : Option ℕ) :
    Chunks N (Function.update s.heap s.endChunk (some { chunk with next := next })) base blocks
      s.written s.taken.length := by
  refine h.chunks.congr (h.base_le hN) ?_ (fun _ _ _ _ => prevOf_update_same hchunk rfl)
    fun _ _ => valuesOf_update_same hchunk rfl
  intro i a hi hlt ha
  refine nextOf_update_of_ne ?_
  rintro rfl
  have hsame := number_unique h.drop_nodup hi hbase ha hlast
  omega

/-- The last chunk points to the one in the hand of the writer. -/
theorem Shape.writerSetNext (h : Shape N s base blocks x wh) (hN : 0 < N) {sc : ℕ}
    (hfull : Full N s blocks) (hwh : wh = some sc) : ∃ chunk, s.heap s.endChunk = some chunk ∧
      ∀ point : Writer E, (∃ incomplete, point = .setPrev sc incomplete ∨ point = .setPrevNew incomplete) →
        Inv N { s.setChunk s.endChunk (some { chunk with next := some sc }) with writer := point } := by
  subst hwh
  have hbase : base ≤ s.written.length / N :=
    (h.base_le hN).trans (Nat.div_le_div_right h.taken_le_written)
  have hmem := mem_drop_of_getElem? hfull.last hbase
  obtain ⟨chunk, hchunk⟩ := h.mem_owned hmem
  refine ⟨chunk, hchunk, ?_⟩
  intro point hpoint
  refine ⟨base, blocks, x, some sc, ?_⟩
  exact { h with
    chunks := h.setNext hN hfull.last (hfull.number hN) hbase hchunk (some sc)
    owns := h.owns.update (List.mem_append_left _ hmem) _
    writer := by
      have hfull' : Full N { s.setChunk s.endChunk (some { chunk with next := some sc }) with
          writer := point } blocks := ⟨hfull.back, hfull.last, hfull.length⟩
      obtain ⟨incomplete, rfl | rfl⟩ := hpoint
      · exact ⟨hfull', rfl, nextOf_update_self⟩
      · exact ⟨hfull', sc, rfl, nextOf_update_self⟩
    reader := h.reader.transfer hN rfl rfl fun _ _ => rfl }

/-- The chunk in the hand of the writer points back to the last one. -/
theorem Shape.writerSetPrev (h : Shape N s base blocks x wh) (hN : 0 < N) {sc : ℕ} (incomplete : Bool)
    (hfull : Full N s blocks) (hwh : wh = some sc) (hnext : nextOf s.heap s.endChunk = some sc) :
    ∃ chunk, s.heap sc = some chunk ∧
      Inv N { s.setChunk sc (some { chunk with prev := some s.endChunk }) with
        writer := .moveEnd incomplete } := by
  subst hwh
  have hmem : sc ∈ owned s base blocks (some sc) := by simp [owned]
  obtain ⟨chunk, hchunk⟩ := h.owns.exists_of_mem hmem
  have hout : ∀ a ∈ blocks.drop base, a ≠ sc := fun a ha => h.owns.ne_of_mem ha (by simp)
  have hsame : nextOf (Function.update s.heap sc (some { chunk with prev := some s.endChunk }))
      s.endChunk = nextOf s.heap s.endChunk := nextOf_update_same hchunk rfl
  refine ⟨chunk, hchunk, base, blocks, x, some sc, ?_⟩
  exact { h with
    chunks := by
      refine h.chunks.congr (h.base_le hN) (fun _ _ _ _ _ => nextOf_update_same hchunk rfl) ?_
        fun _ _ => valuesOf_update_same hchunk rfl
      intro i a hi ha
      exact prevOf_update_of_ne (hout a (mem_drop_of_getElem? ha (hi.trans (Nat.le_succ i))))
    owns := h.owns.update hmem _
    writer := ⟨⟨hfull.back, hfull.last, hfull.length⟩, sc, rfl,
      hsame.trans hnext, prevOf_update_self⟩
    reader := h.reader.transfer hN rfl rfl fun _ _ => rfl }

/-- The chunk in the hand of the writer becomes the last one of the queue. -/
theorem Chunks.snoc {heap : Heap E} {written : List E} {t last sc : ℕ}
    (h : Chunks N heap base blocks written t) (hlast : blocks[written.length / N]? = some last)
    (hnumber : written.length / N + 1 = blocks.length) (hnext : nextOf heap last = some sc)
    (hprev : prevOf heap sc = some last) : Chunks N heap base (blocks ++ [sc]) written t := by
  have hlink : ∀ i a b, (blocks ++ [sc])[i]? = some a → (blocks ++ [sc])[i + 1]? = some b →
      (blocks[i]? = some a ∧ blocks[i + 1]? = some b) ∨ (a = last ∧ b = sc) := by
    intro i a b ha hb
    by_cases hi : i + 1 < blocks.length
    · rw [List.getElem?_append_left (by omega)] at ha
      rw [List.getElem?_append_left hi] at hb
      exact .inl ⟨ha, hb⟩
    · obtain ⟨hlt, -⟩ := List.getElem?_eq_some_iff.mp hb
      rw [List.length_append, List.length_singleton] at hlt
      have hi' : i = written.length / N := by omega
      rw [List.getElem?_append_left (by omega), hi', hlast] at ha
      rw [List.getElem?_append_right (by omega), hi', hnumber, Nat.sub_self] at hb
      exact .inr ⟨(Option.some.inj ha).symm, (Option.some.inj hb).symm⟩
  refine ⟨?_, ?_, ?_⟩
  · intro i a b hi ha hb
    obtain ⟨ha', hb'⟩ | ⟨rfl, rfl⟩ := hlink i a b ha hb
    · exact h.next i a b hi ha' hb'
    · exact hnext
  · intro i a b hi ha hb
    obtain ⟨ha', hb'⟩ | ⟨rfl, rfl⟩ := hlink i a b ha hb
    · exact h.prev i a b hi ha' hb'
    · exact hprev
  · intro i v p hi hv hp
    obtain ⟨hlt, -⟩ := List.getElem?_eq_some_iff.mp hv
    have hle : i / N ≤ written.length / N := Nat.div_le_div_right (by omega)
    rw [place_of_append (by omega)] at hp
    exact h.values i v p hi hv hp

theorem Shape.writerMoveEnd (h : Shape N s base blocks x wh) (hN : 0 < N) {incomplete : Bool}
    (hat : s.writer = .moveEnd incomplete) :
    ∃ s', write N s (.moveEnd incomplete) = some s' ∧ Inv N s' := by
  have hw := h.writer
  rw [hat] at hw
  obtain ⟨hfull, sc, rfl, hnext, hprev⟩ := hw
  obtain ⟨chunk, hchunk, hchunkNext⟩ := exists_chunk_of_next hnext
  have hwrite : write N s (.moveEnd incomplete) =
      some (Ypipe.finishWrite { s with endChunk := sc, endPos := 0 } incomplete) := by
    simp only [write, hchunk, hchunkNext, Option.bind_eq_bind, Option.bind_some]
    rfl
  have hbase : base ≤ blocks.length :=
    ((h.base_le hN).trans (Nat.div_le_div_right h.taken_le_written)).trans h.writer.div_lt.le
  refine ⟨_, hwrite, base, blocks ++ [sc], x, none, Shape.finishWrite ?_ hN incomplete⟩
  exact { h with
    chunks := h.chunks.snoc hfull.last (hfull.number hN) hnext hprev
    owns := by
      refine h.owns.of_perm ?_
      rw [owned, owned, List.drop_append_of_le_length hbase, List.append_assoc]
      refine List.Perm.append_left _ ?_
      simp only [Option.toList_some, Option.toList_none, List.nil_append]
      rw [← List.append_assoc, ← List.append_assoc]
      exact List.perm_append_comm.append_right _
    writer := by
      refine ⟨⟨place_append hfull.back, ?_, ?_⟩, rfl⟩
      · rw [hfull.length]
        exact place_of_decomp hN (by rw [List.getElem?_append_right (Nat.le_refl _), Nat.sub_self]; rfl)
      · rw [List.length_append, List.length_singleton, hfull.length, Nat.mul_div_cancel_left _ hN]
    reader := by
      refine h.reader.transfer hN rfl rfl ?_
      intro i hi
      have hle : s.taken.length / N ≤ s.written.length / N := Nat.div_le_div_right h.taken_le_written
      exact List.getElem?_append_left (by have := h.writer.div_lt; omega)
    w := place_append h.w
    f := place_append h.f
    r := fun p hp => place_append (h.r p hp) }

/-! ## `unwrite` -/

theorem unpushEnd_eq (s : System E) : unpushEnd s =
    { s with endPos := s.endPos - 1, writer := if s.endPos ≠ 0 then .fetch else .endPrev } := by
  rw [unpushEnd]
  split
  · rfl
  · rename_i hzero
    rw [not_not] at hzero
    cases s
    simp only at hzero
    subst hzero
    rfl

/-- The back has gone to the last element, and the end follows. -/
theorem WriterAt.unpushEnd (hN : 0 < N) (hretreat : Retreat N s blocks)
    (hlast : place N blocks (s.written.length + 1) = some (s.endChunk, s.endPos))
    (hlength : blocks.length = (s.written.length + 1) / N + 1) :
    WriterAt N (unpushEnd s) blocks none (unpushEnd s).writer := by
  rw [unpushEnd_eq]
  cases hpos : s.endPos with
  | zero =>
    rw [hpos] at hlast
    exact ⟨⟨hretreat.incomplete, hretreat.back⟩, rfl, rfl, hlast, hlength⟩
  | succ m =>
    rw [hpos] at hlast
    have hmod : (s.written.length + 1) % N = m + 1 := (place_eq_some.mp hlast).2
    have hbefore := place_pred hN hlast
    have hinner : s.written.length % N + 1 < N := by
      have hm : s.written.length % N = m := (place_eq_some.mp hbefore).2
      have := Nat.mod_lt (s.written.length + 1) hN
      omega
    exact ⟨⟨hretreat.incomplete, hretreat.back⟩, rfl, hbefore, by rw [hlength, div_succ_of_inner hinner]⟩

/-- The elements behind `f` are those that may be taken back. -/
theorem Shape.f_eq_back_iff (h : Shape N s base blocks x wh) (hN : 0 < N)
    (hback : place N blocks s.written.length = some s.back) :
    s.f = s.back ↔ s.complete = s.written.length := by
  constructor
  · intro heq
    have hle := h.taken_le.trans (h.prefetched_le.trans h.flushed_le)
    exact h.place_unique hN hle h.taken_le_written h.f (heq ▸ hback)
  · intro heq
    have hf := h.f
    rw [heq, hback] at hf
    exact (Option.some.inj hf).symm

theorem Shape.retreat (h : Shape N s base blocks x none) (hN : 0 < N) (back : Slot)
    (hretreat : Retreat N { s with backChunk := back.1, backPos := back.2 } blocks)
    (hlast : place N blocks (s.written.length + 1) = some (s.endChunk, s.endPos))
    (hlength : blocks.length = (s.written.length + 1) / N + 1) :
    Shape N (unpushEnd { s with backChunk := back.1, backPos := back.2 }) base blocks x none := by
  have hwriter := WriterAt.unpushEnd hN hretreat hlast hlength
  rw [unpushEnd_eq] at hwriter ⊢
  exact { h with
    owns := h.owns
    writer := hwriter
    reader := h.reader.transfer hN rfl rfl fun _ _ => rfl }

theorem Shape.callUnwrite (h : Shape N s base blocks x wh) (hN : 0 < N) (hidle : s.writer = .idle) :
    Shape N (callUnwrite s) base blocks x wh := by
  have hw := h.writer
  rw [hidle] at hw
  obtain ⟨hrest, rfl⟩ := hw
  obtain ⟨hback, hlast, hlength⟩ := hrest
  rw [Ypipe.callUnwrite]
  split
  · exact h.writerGo hN ⟨⟨hback, hlast, hlength⟩, rfl⟩
  · rename_i hne
    have hcomplete : s.complete < s.written.length :=
      lt_of_le_of_ne h.complete_le fun heq => hne ((h.f_eq_back_iff hN hback).mpr heq)
    split
    · rename_i hpos
      obtain ⟨m, hm⟩ := Nat.exists_eq_succ_of_ne_zero hpos
      obtain ⟨k, hk⟩ : ∃ k, s.written.length = k + 1 := ⟨s.written.length - 1, by omega⟩
      have hslot : s.back = (s.backChunk, m + 1) := by rw [System.back, hm]
      rw [hslot, hk] at hback
      refine h.retreat hN (s.backChunk, s.backPos - 1) ⟨hcomplete, ?_⟩ hlast hlength
      show place N blocks (s.written.length - 1) = some (s.backChunk, s.backPos - 1)
      rw [hk, hm]
      exact place_pred hN hback
    · rename_i hzero
      exact h.writerGo hN ⟨⟨hback, hlast, hlength⟩, rfl, hcomplete, not_not.mp hzero⟩

theorem Shape.writerBackPrev (h : Shape N s base blocks x wh) (hN : 0 < N)
    (hat : s.writer = .backPrev) : ∃ s', write N s .backPrev = some s' ∧ Inv N s' := by
  have hw := h.writer
  rw [hat] at hw
  obtain ⟨⟨hback, hlast, hlength⟩, rfl, hcomplete, hzero⟩ := hw
  obtain ⟨hnumber, hmod⟩ := place_eq_some.mp hback
  have hmod' : s.written.length % N = 0 := hmod.trans hzero
  have hdecomp := Nat.div_add_mod s.written.length N
  -- the last element is the last one of the chunk before
  obtain ⟨q, hq⟩ : ∃ q, s.written.length / N = q + 1 := by
    refine Nat.exists_eq_succ_of_ne_zero fun hdiv => ?_
    rw [hdiv, Nat.mul_zero, hmod'] at hdecomp
    omega
  rw [hq] at hnumber
  have hlt : q < blocks.length := by
    have := h.writer.div_lt
    omega
  have hbefore : s.written.length - 1 = N * q + (N - 1) := by
    rw [hq, hmod', Nat.mul_add] at hdecomp
    omega
  have hbase : base ≤ q := by
    have hle : s.taken.length / N ≤ (s.written.length - 1) / N := by
      refine Nat.div_le_div_right ?_
      have := h.taken_le
      have := h.prefetched_le
      have := h.flushed_le
      omega
    rw [hbefore, Nat.mul_add_div hN, Nat.div_eq_of_lt (show N - 1 < N by omega)] at hle
    exact (h.base_le hN).trans hle
  have hget := List.getElem?_eq_getElem hlt
  obtain ⟨chunk, hchunk, hprev⟩ := exists_chunk_of_prev (h.chunks.prev q _ _ hbase hget hnumber)
  have hbackChunk : s.heap s.backChunk = some chunk := hchunk
  have hwrite : write N s .backPrev =
      some (Ypipe.unpushEnd { s with backChunk := blocks[q], backPos := N - 1 }) := by
    simp only [write, hbackChunk, hprev, Option.bind_eq_bind, Option.bind_some]
    rfl
  refine ⟨_, hwrite, base, blocks, x, none, ?_⟩
  refine h.retreat hN (blocks[q], N - 1) ⟨hcomplete, ?_⟩ hlast hlength
  show place N blocks (s.written.length - 1) = some (blocks[q], N - 1)
  rw [hbefore]
  exact place_of_decomp (by omega) hget

theorem Shape.writerEndPrev (h : Shape N s base blocks x wh) (hN : 0 < N)
    (hat : s.writer = .endPrev) : ∃ s', write N s .endPrev = some s' ∧ Inv N s' := by
  have hw := h.writer
  rw [hat] at hw
  obtain ⟨hretreat, rfl, hzero, hlast, hlength⟩ := hw
  obtain ⟨hnumber, hmod⟩ := place_eq_some.mp hlast
  have hmod' : (s.written.length + 1) % N = 0 := hmod.trans hzero
  have hdecomp := Nat.div_add_mod (s.written.length + 1) N
  obtain ⟨q, hq⟩ : ∃ q, (s.written.length + 1) / N = q + 1 := by
    refine Nat.exists_eq_succ_of_ne_zero fun hdiv => ?_
    rw [hdiv, Nat.mul_zero, hmod'] at hdecomp
    omega
  rw [hq] at hnumber
  have hlt : q < blocks.length := by omega
  have hbefore : s.written.length = N * q + (N - 1) := by
    rw [hq, hmod', Nat.mul_add] at hdecomp
    omega
  have hdiv : s.written.length / N = q := by
    rw [hbefore, Nat.mul_add_div hN, Nat.div_eq_of_lt (by omega), Nat.add_zero]
  have hbase : base ≤ q := by
    rw [← hdiv]
    exact (h.base_le hN).trans (Nat.div_le_div_right h.taken_le_written)
  have hget := List.getElem?_eq_getElem hlt
  obtain ⟨chunk, hchunk, hprev⟩ := exists_chunk_of_prev (h.chunks.prev q _ _ hbase hget hnumber)
  have hendChunk : s.heap s.endChunk = some chunk := hchunk
  have hwrite : write N s .endPrev =
      some { s with endPos := N - 1, endChunk := blocks[q], writer := .free } := by
    simp only [write, hendChunk, hprev, Option.bind_eq_bind, Option.bind_some]
    rfl
  refine ⟨_, hwrite, base, blocks, x, none, ?_⟩
  exact { h with
    owns := h.owns
    writer := by
      refine ⟨⟨hretreat.incomplete, hretreat.back⟩, rfl, ?_, ?_⟩
      · show place N blocks s.written.length = some (blocks[q], N - 1)
        rw [hbefore]
        exact place_of_decomp (by omega) hget
      · show blocks.length = s.written.length / N + 2
        rw [hdiv, hlength, hq]
    reader := h.reader.transfer hN rfl rfl fun _ _ => rfl }

/-- The last chunk is released. -/
theorem Shape.writerFree (h : Shape N s base blocks x wh) (hN : 0 < N) (hat : s.writer = .free) :
    ∃ s', write N s .free = some s' ∧ Inv N s' := by
  have hw := h.writer
  rw [hat] at hw
  obtain ⟨hretreat, rfl, hend, hlength⟩ := hw
  obtain ⟨pre, last, rfl⟩ : ∃ pre last, blocks = pre ++ [last] := by
    rcases List.eq_nil_or_concat blocks with rfl | ⟨pre, last, rfl⟩
    · simp at hlength
    · exact ⟨pre, last, List.concat_eq_append⟩
  have hpre : pre.length = s.written.length / N + 1 := by
    rw [List.length_append, List.length_singleton] at hlength
    omega
  have hlive : ∀ i, i ≤ s.written.length → i / N < pre.length := by
    intro i hi
    have hle : i / N ≤ s.written.length / N := Nat.div_le_div_right hi
    omega
  have htaken := h.taken_le_written
  have hbase : base ≤ s.written.length / N := (h.base_le hN).trans (Nat.div_le_div_right htaken)
  have hnext : nextOf s.heap s.endChunk = some last := by
    refine h.chunks.next _ _ _ hbase (place_eq_some.mp hend).1 ?_
    rw [← hpre, List.getElem?_append_right (Nat.le_refl _), Nat.sub_self]
    rfl
  obtain ⟨chunk, hchunk, hchunkNext⟩ := exists_chunk_of_next hnext
  have hheld : Owns s.heap (last :: owned s base pre none) := by
    refine h.owns.of_perm ?_
    rw [owned, owned, List.drop_append_of_le_length (by omega), List.append_assoc]
    exact List.perm_middle
  obtain ⟨old, hold⟩ := hheld.exists_of_mem List.mem_cons_self
  have hne : ∀ a ∈ pre.drop base, a ≠ last := by
    rintro a ha rfl
    exact (List.nodup_cons.mp hheld.nodup).1 (List.mem_append_left _ ha)
  have hwrite : write N s .free = some { s.setChunk last none with writer := .clearNext } := by
    simp only [write, hchunk, hchunkNext, hold, Option.bind_eq_bind, Option.bind_some]
    rfl
  have hkept : ∀ i, i < pre.length → (pre ++ [last])[i]? = pre[i]? :=
    fun i hi => List.getElem?_append_left hi
  have hget : ∀ (i a : ℕ), pre[i]? = some a → (pre ++ [last])[i]? = some a := by
    intro i a ha
    obtain ⟨hlt, -⟩ := List.getElem?_eq_some_iff.mp ha
    rw [hkept i hlt, ha]
  have hplace : ∀ i, i ≤ s.written.length → place N pre i = place N (pre ++ [last]) i :=
    fun i hi => (place_of_append (hlive i hi)).symm
  have hold' : Chunks N s.heap base pre s.written s.taken.length := by
    refine ⟨?_, ?_, ?_⟩
    · intro i a b hi ha hb
      exact h.chunks.next i a b hi (hget i a ha) (hget _ b hb)
    · intro i a b hi ha hb
      exact h.chunks.prev i a b hi (hget i a ha) (hget _ b hb)
    · intro i v p hi hv hp
      exact h.chunks.values i v p hi hv (place_append hp)
  have hincomplete := hretreat.incomplete
  have hflushed := h.flushed_le
  refine ⟨_, hwrite, base, pre, x, none, ?_⟩
  exact { h with
    chunks := by
      refine hold'.congr (h.base_le hN) ?_ ?_ ?_
      · intro i a hi _ ha
        exact nextOf_update_of_ne (hne a (mem_drop_of_getElem? ha hi))
      · intro i a hi ha
        exact prevOf_update_of_ne (hne a (mem_drop_of_getElem? ha (hi.trans (Nat.le_succ i))))
      · intro a ha
        exact valuesOf_update_of_ne (hne a ha)
    owns := hheld.release
    writer := by
      refine ⟨⟨hretreat.incomplete, ?_⟩, rfl, ?_, hpre⟩
      · exact (hplace _ (Nat.sub_le _ _)).trans hretreat.back
      · exact (hplace _ (Nat.le_refl _)).trans hend
    reader := by
      refine h.reader.transfer hN rfl rfl ?_
      intro i hi
      exact (hkept i (Nat.lt_of_le_of_lt hi (hlive _ htaken))).symm
    w := (hplace _ (hflushed.trans hincomplete.le)).trans h.w
    f := (hplace _ hincomplete.le).trans h.f
    r := by
      intro p hp
      have hx := h.prefetched_le
      exact (hplace _ (by omega)).trans (h.r p hp) }

theorem Shape.writerClearNext (h : Shape N s base blocks x wh) (hN : 0 < N)
    (hat : s.writer = .clearNext) : ∃ s', write N s .clearNext = some s' ∧ Inv N s' := by
  have hw := h.writer
  rw [hat] at hw
  obtain ⟨hretreat, rfl, hend, hlength⟩ := hw
  have hmem := h.mem_drop hN h.taken_le_written hend
  have hbase : base ≤ s.written.length / N :=
    (h.base_le hN).trans (Nat.div_le_div_right h.taken_le_written)
  obtain ⟨chunk, hchunk⟩ := h.mem_owned hmem
  have hendChunk : s.heap s.endChunk = some chunk := hchunk
  have hwrite : write N s .clearNext =
      some { s.setChunk s.endChunk (some { chunk with next := none }) with writer := .fetch } := by
    simp only [write, hendChunk, Option.bind_eq_bind, Option.bind_some]
    rfl
  refine ⟨_, hwrite, base, blocks, x, none, ?_⟩
  exact { h with
    chunks := h.setNext hN (place_eq_some.mp hend).1 hlength.symm hbase hendChunk none
    owns := h.owns.update (List.mem_append_left _ hmem) _
    writer := ⟨⟨hretreat.incomplete, hretreat.back⟩, rfl, hend, hlength⟩
    reader := h.reader.transfer hN rfl rfl fun _ _ => rfl }

/-- The element that was written last is taken back. -/
theorem Shape.writerFetch (h : Shape N s base blocks x wh) (hN : 0 < N) (hat : s.writer = .fetch) :
    ∃ s', write N s .fetch = some s' ∧ Inv N s' ∧ s'.writer = .done true s.written.getLast? := by
  have hw := h.writer
  rw [hat] at hw
  obtain ⟨⟨hincomplete, hback⟩, rfl, hend, hlength⟩ := hw
  have hflushed := h.flushed_le
  have hprefetched := h.prefetched_le
  have htaken := h.taken_le
  obtain ⟨k, hk⟩ : ∃ k, s.written.length = k + 1 := ⟨s.written.length - 1, by omega⟩
  have hlen : s.written.dropLast.length = k := by rw [List.length_dropLast, hk, Nat.add_sub_cancel]
  rw [hk, Nat.add_sub_cancel] at hback
  obtain ⟨chunk, hchunk⟩ := h.mem_owned (h.mem_drop hN (by omega) hback)
  have hbackChunk : s.heap s.backChunk = some chunk := hchunk
  have hlast : s.written.getLast? = some (chunk.values s.backPos) := by
    have hlt : k < s.written.length := by omega
    have hstored := h.chunks.values k _ _ (by omega) (List.getElem?_eq_getElem hlt) hback
    rw [valueAt, valuesOf, hchunk] at hstored
    rw [List.getLast?_eq_getElem?, hk, Nat.add_sub_cancel, List.getElem?_eq_getElem hlt]
    exact hstored.symm
  have hwrite : write N s .fetch = some { s with
      written := s.written.dropLast
      writer := .done true (some (chunk.values s.backPos)) } := by
    simp only [write, hbackChunk, Option.bind_eq_bind, Option.bind_some]
    rfl
  refine ⟨_, hwrite, ⟨base, blocks, x, none, ?_⟩, by rw [hlast]⟩
  exact { h with
    chunks := {
      next := h.chunks.next
      prev := h.chunks.prev
      values := by
        intro i v p hi hv hp
        rw [List.getElem?_dropLast] at hv
        split at hv
        · exact h.chunks.values i v p hi hv hp
        · cases hv }
    owns := h.owns
    writer := by
      refine ⟨⟨?_, ?_, ?_⟩, rfl⟩
      · rw [hlen]
        exact hback
      · rw [hlen, ← hk]
        exact hend
      · rw [hlen, ← hk]
        exact hlength
    reader := h.reader.transfer hN rfl rfl fun _ _ => rfl
    complete_le := by
      show s.complete ≤ s.written.dropLast.length
      omega
    taken := by
      show s.taken = s.written.dropLast.take s.taken.length
      rw [List.dropLast_eq_take, List.take_take, Nat.min_eq_left (by omega)]
      exact h.taken }

/-! ## `flush` -/

theorem Shape.callFlush (h : Shape N s base blocks x wh) (hN : 0 < N) (hidle : s.writer = .idle) :
    Shape N (callFlush s) base blocks x wh := by
  have hw := h.writer
  rw [hidle] at hw
  rw [Ypipe.callFlush]
  split
  · exact h.writerGo hN hw
  · exact h.writerGo hN hw

/-- The CAS of `flush` publishes what is complete unless the reader is asleep. -/
theorem Shape.writerCas (h : Shape N s base blocks x wh) (hN : 0 < N) (hat : s.writer = .cas) :
    ∃ s', write N s .cas = some s' ∧ Inv N s' ∧
      s'.writer = if s.asleep then .set else .done true none := by
  have hw := h.writer
  rw [hat] at hw
  obtain ⟨⟨hback, hlast, hlength⟩, rfl⟩ := hw
  have hc := h.c
  by_cases hasleep : s.asleep = true
  · rw [if_pos hasleep] at hc
    have hwrite : write N s .cas = some { s with writer := .set } := by
      rw [write, hc, if_neg nofun]
    refine ⟨_, hwrite, ⟨base, blocks, x, none, ?_⟩, by rw [if_pos hasleep]⟩
    exact h.writerGo hN ⟨⟨hback, hlast, hlength⟩, rfl, hasleep⟩
  · rw [if_neg hasleep] at hc
    have hwrite : write N s .cas = some { s with
        c := some s.f, w := s.f, flushed := s.complete, writer := .done true none } := by
      rw [write, hc, if_pos rfl]
    refine ⟨_, hwrite, ⟨base, blocks, x, none, ?_⟩, by rw [if_neg hasleep]⟩
    exact { h with
      owns := h.owns
      writer := ⟨⟨hback, hlast, hlength⟩, rfl⟩
      reader := h.reader.transfer hN rfl rfl fun _ _ => rfl
      w := h.f
      c := by rw [if_neg hasleep]
      prefetched_le := h.prefetched_le.trans h.flushed_le
      flushed_le := Nat.le_refl _
      asleep := fun hyes => absurd hyes hasleep }

/-- The reader is told of what is complete. -/
theorem Shape.writerSet (h : Shape N s base blocks x wh) (hN : 0 < N) (hat : s.writer = .set) :
    Inv N { s with
      c := some s.f, w := s.f, flushed := s.complete, asleep := false, writer := .done false none } := by
  have hw := h.writer
  rw [hat] at hw
  obtain ⟨⟨hback, hlast, hlength⟩, rfl, hasleep⟩ := hw
  refine ⟨base, blocks, x, none, ?_⟩
  exact { h with
    owns := h.owns
    writer := ⟨⟨hback, hlast, hlength⟩, rfl⟩
    reader := h.reader.transfer hN rfl rfl fun _ _ => rfl
    w := h.f
    c := rfl
    prefetched_le := h.prefetched_le.trans h.flushed_le
    flushed_le := Nat.le_refl _
    asleep := nofun }

end CServer.Queues.Ypipe
