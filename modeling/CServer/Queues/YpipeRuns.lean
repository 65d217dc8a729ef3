import CServer.Queues.YpipeReader
import CServer.Queues.YpipeWriter

/-!
# The runs of the pipe

In every interleaving of the writer and the reader the elements are read in the order in which they
were written, none before it was flushed; no step accesses a chunk that is not allocated; and the
reader is told of a flush exactly when it has found nothing since the one before.
-/
namespace CServer.Queues.Ypipe

open CServer.Blocks

variable {E : Type} {N base x : ℕ} {blocks : List ℕ} {s : System E} {wh : Option ℕ}

/-! ## The constructor -/

theorem shape_initial_one {first second : ℕ} (chunk chunk' : Chunk E) (hne : first ≠ second) :
    Shape 1 (initial 1 first second chunk chunk') 0 [first, second] 0 none where
  chunks := {
    next := by
      rintro (_ | i) a b - ha hb
      · obtain rfl := Option.some.inj ha
        obtain rfl := Option.some.inj hb
        show nextOf (Function.update _ _ _) _ = _
        rw [nextOf_update_of_ne hne, nextOf_update_self]
      · exact absurd hb (by simp)
    prev := by
      rintro (_ | i) a b - ha hb
      · obtain rfl := Option.some.inj ha
        obtain rfl := Option.some.inj hb
        exact prevOf_update_self
      · exact absurd hb (by simp)
    values := by
      intro i v p _ hv _
      exact absurd hv (by simp [initial]) }
  owns := by
    have hnone : Owns (fun _ => none : Heap E) [] := ⟨List.nodup_nil, by simp⟩
    have hone := hnone.acquire (p := first) rfl { chunk with next := some second }
    have htwo := hone.acquire (p := second) (Function.update_of_ne hne.symm ..)
      { chunk' with prev := some first }
    exact htwo.of_perm (List.Perm.swap _ _ _)
  writer := by
    refine ⟨⟨place_of_decomp (q := 0) Nat.one_pos rfl, place_of_decomp (q := 1) Nat.one_pos rfl, ?_⟩,
      rfl⟩
    show 2 = (0 + 1) / 1 + 1
    rw [Nat.div_one]
  reader := ⟨(Nat.zero_div 1).symm, place_of_decomp (q := 0) Nat.one_pos rfl⟩
  w := place_of_decomp (q := 0) Nat.one_pos rfl
  f := place_of_decomp (q := 0) Nat.one_pos rfl
  r := by
    intro p hp
    exact hp
  c := rfl
  taken_le := Nat.le_refl _
  prefetched_le := Nat.le_refl _
  flushed_le := Nat.le_refl _
  complete_le := Nat.le_refl _
  asleep := nofun
  taken := rfl

theorem shape_initial {first second : ℕ} (chunk chunk' : Chunk E) (hN : 1 < N) :
    Shape N (initial N first second chunk chunk') 0 [first] 0 none := by
  have hne : ¬ N = 1 := by omega
  have hfirst : place N [first] 0 = some (first, 0) := place_of_decomp (q := 0) (hN.le) rfl
  have hsecond : place N [first] 1 = some (first, 1) := place_of_decomp (q := 0) hN rfl
  have hheap : (initial N first second chunk chunk').heap =
      Function.update (fun _ => none) first (some chunk) := if_neg hne
  refine ⟨⟨?_, ?_, ?_⟩, ?_, ⟨⟨hfirst, ?_, ?_⟩, rfl⟩, ⟨?_, hfirst⟩, hfirst, hfirst, ?_, rfl,
    Nat.le_refl _, Nat.le_refl _, Nat.le_refl _, Nat.le_refl _, nofun, rfl⟩
  · intro i a b _ _ hb
    exact absurd hb (by simp)
  · intro i a b _ _ hb
    exact absurd hb (by simp)
  · intro i v p _ hv _
    exact absurd hv (by simp [initial])
  · have hnone : Owns (fun _ => none : Heap E) [] := ⟨List.nodup_nil, by simp⟩
    rw [hheap]
    exact hnone.acquire rfl chunk
  · show place N [first] 1 = some (if N = 1 then second else first, if N = 1 then 0 else 1)
    rw [if_neg hne, if_neg hne, hsecond]
  · show 1 = (0 + 1) / N + 1
    rw [Nat.div_eq_of_lt (by omega)]
  · show 0 = 0 / N
    rw [Nat.zero_div]
  · intro p hp
    exact hfirst.trans hp

theorem inv_initial (hN : 0 < N) {first second : ℕ} (chunk chunk' : Chunk E) (hne : first ≠ second) :
    Inv N (initial N first second chunk chunk') := by
  rcases Nat.lt_or_eq_of_le (Nat.succ_le_of_lt hN) with hlt | rfl
  · exact ⟨0, [first], 0, none, shape_initial chunk chunk' hlt⟩
  · exact ⟨0, [first, second], 0, none, shape_initial_one chunk chunk' hne⟩

/-! ## One step -/

theorem Shape.write (h : Shape N s base blocks x wh) (hN : 0 < N) (hidle : s.writer ≠ .idle)
    (hmalloc : ∀ incomplete, s.writer ≠ .malloc incomplete) :
    ∃ s', write N s s.writer = some s' ∧ Inv N s' := by
  have hw := h.writer
  cases hat : s.writer with
  | idle => exact absurd hat hidle
  | store value incomplete => exact h.writerStore hN hat
  | takeSpare incomplete => exact h.writerTakeSpare hN hat
  | malloc incomplete => exact absurd hat (hmalloc incomplete)
  | setNext sc incomplete =>
    rw [hat] at hw
    obtain ⟨chunk, hchunk, hinv⟩ := h.writerSetNext hN hw.1 hw.2
    refine ⟨_, ?_, hinv (.setPrev sc incomplete) ⟨incomplete, .inl rfl⟩⟩
    simp only [Ypipe.write, hchunk, Option.bind_eq_bind, Option.bind_some]
    rfl
  | setNextNew sc incomplete =>
    rw [hat] at hw
    obtain ⟨chunk, hchunk, hinv⟩ := h.writerSetNext hN hw.1 hw.2
    refine ⟨_, ?_, hinv (.setPrevNew incomplete) ⟨incomplete, .inr rfl⟩⟩
    simp only [Ypipe.write, hchunk, Option.bind_eq_bind, Option.bind_some]
    rfl
  | setPrev sc incomplete =>
    rw [hat] at hw
    obtain ⟨hfull, hwh, hnext⟩ := hw
    obtain ⟨chunk, hchunk, hinv⟩ := h.writerSetPrev hN incomplete hfull hwh hnext
    refine ⟨_, ?_, hinv⟩
    simp only [Ypipe.write, hchunk, Option.bind_eq_bind, Option.bind_some]
    rfl
  | setPrevNew incomplete =>
    rw [hat] at hw
    obtain ⟨hfull, sc, hwh, hnext⟩ := hw
    obtain ⟨last, hlast, hlastNext⟩ := exists_chunk_of_next hnext
    obtain ⟨chunk, hchunk, hinv⟩ := h.writerSetPrev hN incomplete hfull hwh hnext
    refine ⟨_, ?_, hinv⟩
    simp only [Ypipe.write, hlast, hlastNext, hchunk, Option.bind_eq_bind, Option.bind_some]
    rfl
  | moveEnd incomplete => exact h.writerMoveEnd hN hat
  | backPrev => exact h.writerBackPrev hN hat
  | endPrev => exact h.writerEndPrev hN hat
  | free => exact h.writerFree hN hat
  | clearNext => exact h.writerClearNext hN hat
  | fetch =>
    obtain ⟨s', hwrite, hinv, -⟩ := h.writerFetch hN hat
    exact ⟨s', hwrite, hinv⟩
  | cas =>
    obtain ⟨s', hwrite, hinv, -⟩ := h.writerCas hN hat
    exact ⟨s', hwrite, hinv⟩
  | set => exact ⟨_, rfl, h.writerSet hN hat⟩
  | done result value =>
    rw [hat] at hw
    exact ⟨_, rfl, base, blocks, x, wh, h.writerGo hN hw⟩

theorem Shape.read (h : Shape N s base blocks x wh) (hN : 0 < N) (hidle : s.reader ≠ .idle) :
    ∃ s', read N s s.reader = some s' ∧ Inv N s' := by
  cases hat : s.reader with
  | idle => exact absurd hat hidle
  | cas reading =>
    obtain ⟨s', hread, hinv, -, -⟩ := h.readerCas hN hat
    exact ⟨s', hread, hinv⟩
  | fetch =>
    obtain ⟨s', value, hread, hinv, -⟩ := h.readerFetch hN hat
    exact ⟨s', hread, hinv⟩
  | moveBegin value =>
    obtain ⟨s', hread, hinv, -⟩ := h.readerMoveBegin hN hat
    exact ⟨s', hread, hinv⟩
  | clearPrev value o =>
    obtain ⟨s', hread, hinv, -⟩ := h.readerClearPrev hN hat
    exact ⟨s', hread, hinv⟩
  | giveSpare value o =>
    obtain ⟨s', hread, hinv, -⟩ := h.readerGiveSpare hat
    exact ⟨s', hread, hinv⟩
  | free value cs =>
    obtain ⟨s', hread, hinv, -⟩ := h.readerFree hN hat
    exact ⟨s', hread, hinv⟩
  | done result value =>
    have hr := h.reader
    rw [hat] at hr
    exact ⟨_, rfl, base, blocks, x, wh, h.readerDone hN .idle hr (by rw [hat]; rfl)⟩

/-- Each action of a thread has a result and keeps the invariant. -/
theorem Inv.perform (h : Inv N s) (hN : 0 < N) (a : Action E) (henabled : a.Enabled s) :
    ∃ s', perform N s a = some s' ∧ Inv N s' := by
  obtain ⟨base, blocks, x, wh, hs⟩ := h
  cases a with
  | callWrite value incomplete =>
    have hw := hs.writer
    rw [show s.writer = .idle from henabled] at hw
    exact ⟨_, rfl, base, blocks, x, wh, hs.writerGo hN hw⟩
  | callUnwrite => exact ⟨_, rfl, base, blocks, x, wh, hs.callUnwrite hN henabled⟩
  | callFlush => exact ⟨_, rfl, base, blocks, x, wh, hs.callFlush hN henabled⟩
  | callRead reading => exact ⟨_, rfl, base, blocks, x, wh, hs.callRead hN henabled reading⟩
  | malloc p chunk =>
    obtain ⟨⟨incomplete, hat⟩, hfree⟩ := henabled
    exact ⟨_, by rw [Ypipe.perform, hat], hs.malloc hN hat hfree chunk⟩
  | writer => exact hs.write hN henabled.1 henabled.2
  | reader => exact hs.read hN henabled

theorem Reached.inv (h : Reached N s) (hN : 0 < N) : Inv N s := by
  induction h with
  | start first second chunk chunk' hne => exact inv_initial hN chunk chunk' hne
  | step a _ enabled result ih =>
    obtain ⟨s', hresult, hinv⟩ := ih.perform hN a enabled
    rw [result] at hresult
    rw [Option.some.inj hresult]
    exact hinv

/-! ## The results -/

/-- In every run the elements are read in the order in which they were written, none that was not
flushed; what was flushed is complete and is not taken back; and every step of either thread has a
result, so that none accesses a chunk that is not allocated or follows a null pointer. -/
theorem ypipe_in_order (hN : 0 < N) (h : Reached N s) :
    s.taken <+: s.written ∧ s.taken.length ≤ s.flushed ∧ s.flushed ≤ s.complete ∧
      s.complete ≤ s.written.length ∧ ∀ a : Action E, a.Enabled s → ∃ s', perform N s a = some s' := by
  obtain ⟨base, blocks, x, wh, hs⟩ := h.inv hN
  refine ⟨?_, hs.taken_le.trans hs.prefetched_le, hs.flushed_le, hs.complete_le, ?_⟩
  · rw [hs.taken]
    exact List.take_prefix _ _
  · intro a henabled
    obtain ⟨s', hresult, -⟩ := Inv.perform ⟨base, blocks, x, wh, hs⟩ hN a henabled
    exact ⟨s', hresult⟩

/-- An element is written, flushed and read. -/
theorem ypipe_in_order_handedOver : ∃ s : System ℕ, Reached 3 s ∧ s.taken = [7] ∧
    s.taken <+: s.written ∧ ∀ a : Action ℕ, a.Enabled s → ∃ s', perform 3 s a = some s' := by
  have hstart := Reached.start (N := 3) 0 1 ⟨fun _ => 0, none, none⟩ ⟨fun _ => 0, none, none⟩ nofun
  have hcall := Reached.step (.callWrite 7 false) hstart rfl rfl
  have hstore := Reached.step .writer hcall ⟨nofun, nofun⟩ rfl
  have hwritten := Reached.step .writer hstore ⟨nofun, nofun⟩ rfl
  have hflush := Reached.step .callFlush hwritten rfl rfl
  have hcas := Reached.step .writer hflush ⟨nofun, nofun⟩ rfl
  have hread := Reached.step (.callRead true) hcas rfl rfl
  have hfound := Reached.step .reader hread nofun rfl
  have hfetched := Reached.step .reader hfound nofun rfl
  have hresults := ypipe_in_order (by decide) hfetched
  exact ⟨_, hfetched, rfl, hresults.1, hresults.2.2.2.2⟩

theorem WriterAt.length_le {point : Writer E} (h : WriterAt N s blocks wh point) (hN : 0 < N) :
    blocks.length + wh.toList.length ≤ (s.written.length + 1) / N + 2 := by
  have hfull : Full N s blocks → blocks.length = (s.written.length + 1) / N := by
    intro hf
    rw [hf.length, Nat.mul_div_cancel_left _ hN]
  have hmono : s.written.length / N ≤ (s.written.length + 1) / N := Nat.div_le_div_right (by omega)
  have hwh : wh.toList.length ≤ 1 := by cases wh <;> simp
  cases point with
  | takeSpare | malloc | setNext | setNextNew | setPrev | setPrevNew | moveEnd =>
    have := hfull h.1
    omega
  | endPrev =>
    obtain ⟨-, -, -, -, hlength⟩ := h
    omega
  | free =>
    obtain ⟨-, rfl, -, hlength⟩ := h
    simp only [Option.toList_none, List.length_nil]
    omega
  | clearNext | fetch =>
    obtain ⟨-, -, -, hlength⟩ := h
    omega
  | idle | store | cas | set | done | backPrev =>
    have := h.1.length
    omega

theorem ReaderAt.hand_le {point : Reader E} (h : ReaderAt N s base blocks x point) (hN : 0 < N) :
    (readerHand point).length + s.taken.length / N ≤ base + 1 := by
  cases point with
  | moveBegin =>
    rw [h.1, Nat.mul_div_cancel_left _ hN]
    simp [readerHand]
  | clearPrev =>
    rw [h.1, Nat.mul_div_cancel_left _ hN]
    simp [readerHand, Nat.add_comm]
  | free value cs =>
    rw [← h.1]
    cases cs <;> simp [readerHand, Nat.add_comm]
  | idle | cas | fetch | giveSpare | done =>
    rw [← h.1]
    simp [readerHand, Nat.add_comm]

end CServer.Queues.Ypipe
