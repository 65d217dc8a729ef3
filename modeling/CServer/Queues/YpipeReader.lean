import CServer.Queues.YpipeInvariant

/-!
# The steps of the reader
-/
namespace CServer.Queues.Ypipe

open CServer.Blocks

variable {E : Type} {N base x : ℕ} {blocks : List ℕ} {s : System E} {wh : Option ℕ}

/-- The reader answers and changes nothing else. -/
theorem Shape.readerDone (h : Shape N s base blocks x wh) (hN : 0 < N) (point : Reader E)
    (hr : ReaderAt N s base blocks x point) (hhand : readerHand point = readerHand s.reader) :
    Shape N { s with reader := point } base blocks x wh :=
  { h with
    owns := by
      have howns := h.owns
      rw [owned] at howns ⊢
      rwa [hhand]
    writer := h.writer.transfer rfl rfl rfl rfl rfl id rfl fun _ _ => rfl
    reader := hr.transfer hN rfl rfl fun _ _ => rfl }

theorem ReaderAt.begin {point : Reader E} (h : ReaderAt N s base blocks x point)
    (hmove : ∀ value, point ≠ .moveBegin value) (hclear : ∀ value o, point ≠ .clearPrev value o) :
    base = s.taken.length / N ∧ place N blocks s.taken.length = some s.front := by
  cases point with
  | moveBegin value => exact absurd rfl (hmove value)
  | clearPrev value o => exact absurd rfl (hclear value o)
  | fetch => exact ⟨h.1, h.2.1⟩
  | idle | cas | giveSpare | free | done => exact h

/-- The pointer `r` is the front exactly when nothing was prefetched. -/
theorem Shape.front_eq_iff (h : Shape N s base blocks x wh) (hN : 0 < N) {i : ℕ} {p : Slot}
    (hi : s.taken.length ≤ i) (hp : place N blocks i = some p)
    (hfront : place N blocks s.taken.length = some s.front) : s.front = p ↔ i = s.taken.length := by
  constructor
  · rintro rfl
    exact h.place_unique hN hi (Nat.le_refl _) hp hfront
  · rintro rfl
    exact Option.some.inj (hfront.symm.trans hp)

theorem Shape.callRead (h : Shape N s base blocks x wh) (hN : 0 < N) (hidle : s.reader = .idle)
    (reading : Bool) : Shape N (callRead s reading) base blocks x wh := by
  have hr := h.reader
  rw [hidle] at hr
  have hhand : readerHand s.reader = [] := by rw [hidle]; rfl
  rw [Ypipe.callRead]
  split
  · rename_i hfound
    cases reading with
    | false => exact h.readerDone hN _ hr hhand.symm
    | true =>
      refine h.readerDone hN _ ⟨hr.1, hr.2, ?_⟩ hhand.symm
      obtain ⟨p, hp⟩ := Option.ne_none_iff_exists'.mp hfound.2
      refine lt_of_le_of_ne h.taken_le fun heq => hfound.1 ?_
      rw [hp, (h.front_eq_iff hN h.taken_le (h.r p hp) hr.2).mpr heq.symm]
  · exact h.readerDone hN _ hr hhand.symm

theorem read_cas (N : ℕ) (s : System E) (reading : Bool) : read N s (.cas reading) =
    if some s.front = s.c ∨ s.c = none then
      some { s with
        c := if s.c = some s.front then none else s.c
        r := s.c
        asleep := true
        reader := .done false none }
    else some { s with
      c := if s.c = some s.front then none else s.c
      r := s.c
      reader := if reading then .fetch else .done true none } := rfl

/-- The CAS of `check_read` finds all that was flushed, or puts the reader to sleep. -/
theorem Shape.readerCas (h : Shape N s base blocks x wh) (hN : 0 < N) {reading : Bool}
    (hat : s.reader = .cas reading) : ∃ s', read N s (.cas reading) = some s' ∧ Inv N s' ∧
      s'.reader = (if s.taken.length = s.flushed then .done false none
        else if reading then .fetch else .done true none) ∧
      s'.asleep = (s.asleep || decide (s.taken.length = s.flushed)) := by
  have hr := h.reader
  have howns := h.owns
  rw [hat] at hr
  rw [owned, hat] at howns
  obtain ⟨hbase, hfront⟩ := hr
  have htf : s.taken.length ≤ s.flushed := h.taken_le.trans h.prefetched_le
  by_cases hasleep : s.asleep = true
  · -- the reader sleeps already, and `c` is null
    have hc : s.c = none := by rw [h.c, if_pos hasleep]
    rw [if_pos (h.asleep hasleep)]
    refine ⟨_, by rw [read_cas, if_pos (.inr hc)], ⟨base, blocks, x, wh, ?_⟩, rfl, by rw [hasleep]; rfl⟩
    exact { h with
      owns := howns
      writer := h.writer.transfer rfl rfl rfl rfl rfl (fun _ => rfl) rfl fun _ _ => rfl
      reader := ⟨hbase, hfront⟩
      r := fun p hp => absurd (hc.symm.trans hp) nofun
      c := by simp only [hc, ite_self, ↓reduceIte]
      asleep := fun _ => h.asleep hasleep }
  · have hc : s.c = some s.w := by rw [h.c, if_neg hasleep]
    by_cases hall : s.taken.length = s.flushed
    · -- nothing is left, and `c` becomes null
      have hw : s.front = s.w := (h.front_eq_iff hN htf h.w hfront).mpr hall.symm
      rw [if_pos hall]
      refine ⟨_, by rw [read_cas, if_pos (.inl (by rw [hw, hc]))],
        ⟨base, blocks, x, wh, ?_⟩, rfl, by rw [decide_eq_true hall, Bool.or_true]⟩
      have hx : x = s.flushed := by
        have := h.taken_le
        have := h.prefetched_le
        omega
      exact { h with
        owns := howns
        writer := h.writer.transfer rfl rfl rfl rfl rfl (fun _ => rfl) rfl fun _ _ => rfl
        reader := ⟨hbase, hfront⟩
        r := by
          intro p hp
          rw [hx, h.w, ← hc]
          exact hp
        c := by simp only [hc, hw, ↓reduceIte]
        asleep := fun _ => hall }
    · have hw : s.front ≠ s.w := fun heq => hall ((h.front_eq_iff hN htf h.w hfront).mp heq).symm
      have hne : ¬ (some s.front = some s.w ∨ some s.w = none) := by simpa using hw
      have hkept : (if s.c = some s.front then none else s.c) = some s.w := by
        rw [if_neg fun heq => hw (Option.some.inj (hc.symm.trans heq)).symm, hc]
      rw [if_neg hall]
      refine ⟨_, by rw [read_cas, if_neg (by rwa [hc])],
        ⟨base, blocks, s.flushed, wh, ?_⟩, rfl, by rw [decide_eq_false hall, Bool.or_false]⟩
      exact { h with
        owns := by cases reading <;> exact howns
        writer := h.writer.transfer rfl rfl rfl rfl rfl id rfl fun _ _ => rfl
        reader := by
          cases reading with
          | false => exact ⟨hbase, hfront⟩
          | true => exact ⟨hbase, hfront, lt_of_le_of_ne htf hall⟩
        r := by
          intro p hp
          rw [h.w, ← hc]
          exact hp
        c := by
          rw [if_neg hasleep]
          exact hkept
        taken_le := htf
        prefetched_le := Nat.le_refl _ }

/-- The reader takes the element at the front. -/
theorem Shape.readerFetch (h : Shape N s base blocks x wh) (hN : 0 < N) (hat : s.reader = .fetch) :
    ∃ s' value, read N s .fetch = some s' ∧ Inv N s' ∧ s'.taken = s.taken ++ [value] ∧
      (s'.reader = .done true (some value) ∨ s'.reader = .moveBegin value) := by
  have hr := h.reader
  have howns := h.owns
  rw [hat] at hr
  rw [owned, hat] at howns
  obtain ⟨hbase, hfront, hlt⟩ := hr
  have hwritten : s.taken.length < s.written.length :=
    Nat.lt_of_lt_of_le hlt (h.prefetched_le.trans (h.flushed_le.trans h.complete_le))
  obtain ⟨chunk, hchunk⟩ := h.mem_owned (h.mem_drop hN (Nat.le_refl _) hfront)
  have hvalue : chunk.values s.beginPos = s.written[s.taken.length] := by
    have hstored := h.chunks.values _ _ _ (Nat.le_refl _) (List.getElem?_eq_getElem hwritten) hfront
    rw [valueAt, valuesOf, hchunk] at hstored
    exact Option.some.inj hstored
  have hawake : s.asleep ≠ true := by
    intro hasleep
    have hall := h.asleep hasleep
    have := h.prefetched_le
    omega
  have htaken : s.taken ++ [chunk.values s.beginPos] = s.written.take (s.taken.length + 1) := by
    rw [List.take_succ_eq_append_getElem hwritten, ← h.taken, hvalue]
  have hlength : (s.taken ++ [chunk.values s.beginPos]).length = s.taken.length + 1 := by
    rw [List.length_append, List.length_singleton]
  have hpos : s.taken.length % N = s.beginPos := (place_eq_some.mp hfront).2
  have hin : s.beginPos < N := by
    rw [← hpos]
    exact Nat.mod_lt _ hN
  have hread : read N s .fetch =
      if s.beginPos + 1 = N then
        some { s with
          taken := s.taken ++ [chunk.values s.beginPos]
          beginPos := s.beginPos + 1
          reader := .moveBegin (chunk.values s.beginPos) }
      else some { s with
        taken := s.taken ++ [chunk.values s.beginPos]
        beginPos := s.beginPos + 1
        reader := .done true (some (chunk.values s.beginPos)) } := by
    have hbegin : s.heap s.beginChunk = some chunk := hchunk
    simp only [read, hbegin, Option.bind_eq_bind, Option.bind_some]
    split <;> rfl
  by_cases hlast : s.beginPos + 1 = N
  · refine ⟨_, chunk.values s.beginPos, by rw [hread, if_pos hlast], ⟨base, blocks, x, wh, ?_⟩, rfl,
      .inr rfl⟩
    exact { h with
      chunks := h.chunks.later (Nat.le_refl _) (by rw [hlength]; omega)
      owns := howns
      writer := h.writer.transfer rfl rfl rfl rfl rfl id rfl fun _ _ => rfl
      reader := by
        have hdecomp := Nat.div_add_mod s.taken.length N
        refine ⟨?_, ?_⟩
        · rw [hlength, hbase, Nat.mul_add]
          omega
        · rw [hbase]
          exact (place_eq_some.mp hfront).1
      taken_le := by rw [hlength]; exact hlt
      asleep := fun hasleep => absurd hasleep hawake
      taken := by rw [hlength, htaken] }
  · have hinner : s.taken.length % N + 1 < N := by omega
    refine ⟨_, chunk.values s.beginPos, by rw [hread, if_neg hlast], ⟨base, blocks, x, wh, ?_⟩, rfl,
      .inl rfl⟩
    exact { h with
      chunks := h.chunks.later (Nat.le_refl _) (by rw [hlength]; omega)
      owns := howns
      writer := h.writer.transfer rfl rfl rfl rfl rfl id rfl fun _ _ => rfl
      reader := by
        refine ⟨?_, ?_⟩
        · rw [hlength, div_succ_of_inner hinner, hbase]
        · rw [hlength]
          exact place_succ hfront (show s.beginPos + 1 < N by omega)
      taken_le := by rw [hlength]; exact hlt
      asleep := fun hasleep => absurd hasleep hawake
      taken := by rw [hlength, htaken] }

/-- The reader goes to the next chunk. -/
theorem Shape.readerMoveBegin (h : Shape N s base blocks x wh) (hN : 0 < N) {value : E}
    (hat : s.reader = .moveBegin value) : ∃ s', read N s (.moveBegin value) = some s' ∧ Inv N s' ∧
      s'.taken = s.taken ∧ ∃ o, s'.reader = .clearPrev value o := by
  have hr := h.reader
  have howns := h.owns
  rw [hat] at hr
  rw [owned, hat] at howns
  obtain ⟨htaken, hbegin⟩ := hr
  -- the writer has already made the next chunk, since the terminator is behind the last element
  have hnumber : base + 1 < blocks.length := by
    have hle := Nat.div_le_div_right (c := N) h.taken_le_written
    rw [htaken, Nat.mul_div_cancel_left _ hN] at hle
    exact Nat.lt_of_le_of_lt hle h.writer.div_lt
  have hsucc := List.getElem?_eq_getElem hnumber
  obtain ⟨chunk, hchunk, hnext⟩ := exists_chunk_of_next
    (h.chunks.next base _ _ (Nat.le_refl _) hbegin hsucc)
  have hdrop : blocks.drop base = s.beginChunk :: blocks.drop (base + 1) := by
    obtain ⟨hlt, hget⟩ := List.getElem?_eq_some_iff.mp hbegin
    rw [List.drop_eq_getElem_cons hlt, hget]
  have hread : read N s (.moveBegin value) = some { s with
      beginChunk := blocks[base + 1]
      reader := .clearPrev value s.beginChunk } := by
    simp only [read, hchunk, hnext, Option.bind_eq_bind, Option.bind_some]
    rfl
  refine ⟨_, hread, ⟨base + 1, blocks, x, wh, ?_⟩, rfl, s.beginChunk, rfl⟩
  exact { h with
    chunks := h.chunks.later (Nat.le_succ _) (Nat.le_refl _)
    owns := by
      refine howns.of_perm ?_
      rw [hdrop, List.cons_append, owned]
      refine (List.perm_append_singleton _ _).symm.trans ?_
      simp only [readerHand, List.append_nil, List.append_assoc, List.Perm.refl]
    writer := h.writer.transfer rfl rfl rfl rfl rfl id rfl fun _ _ => rfl
    reader := ⟨htaken, hsucc⟩ }

/-- The first chunk has nothing before it. -/
theorem Shape.readerClearPrev (h : Shape N s base blocks x wh) (hN : 0 < N) {value : E} {o : ℕ}
    (hat : s.reader = .clearPrev value o) : ∃ s', read N s (.clearPrev value o) = some s' ∧
      Inv N s' ∧ s'.taken = s.taken ∧ s'.reader = .giveSpare value o := by
  have hr := h.reader
  have howns := h.owns
  rw [hat] at hr
  rw [owned, hat] at howns
  obtain ⟨htaken, hbegin⟩ := hr
  have hmem := mem_drop_of_getElem? hbegin (Nat.le_refl _)
  obtain ⟨chunk, hchunk⟩ := h.mem_owned hmem
  have hprev : ∀ a, a ≠ s.beginChunk → prevOf (Function.update s.heap s.beginChunk
      (some { chunk with prev := none })) a = prevOf s.heap a := fun a ha => prevOf_update_of_ne ha
  have hread : read N s (.clearPrev value o) =
      some { s.setChunk s.beginChunk (some { chunk with prev := none }) with
        beginPos := 0
        reader := .giveSpare value o } := by
    simp only [read, hchunk, Option.bind_eq_bind, Option.bind_some]
    rfl
  refine ⟨_, hread, ⟨base, blocks, x, wh, ?_⟩, rfl, rfl⟩
  exact { h with
    chunks := by
      refine h.chunks.congr (h.base_le hN) (fun _ _ _ _ _ => nextOf_update_same hchunk rfl) ?_
        fun _ _ => valuesOf_update_same hchunk rfl
      intro i a hi ha
      refine hprev a fun heq => ?_
      rw [heq] at ha
      have hsame := number_unique h.drop_nodup (Nat.le_refl _) (hi.trans (Nat.le_succ i)) hbegin ha
      omega
    owns := howns.update (List.mem_append_left _ hmem) _
    writer := by
      refine h.writer.transfer rfl rfl rfl rfl rfl id (nextOf_update_same hchunk rfl) ?_
      rintro sc rfl
      refine hprev sc fun heq => ?_
      exact howns.ne_of_mem hmem (q := sc) (by simp) heq.symm
    reader := by
      refine ⟨?_, ?_⟩
      · show base = s.taken.length / N
        rw [htaken, Nat.mul_div_cancel_left _ hN]
      · show place N blocks s.taken.length = some (s.beginChunk, 0)
        rw [htaken]
        exact place_of_decomp hN hbegin }

/-- The chunk that is read to its end becomes the spare one. -/
theorem Shape.readerGiveSpare (h : Shape N s base blocks x wh) {value : E} {o : ℕ}
    (hat : s.reader = .giveSpare value o) : ∃ s', read N s (.giveSpare value o) = some s' ∧
      Inv N s' ∧ s'.taken = s.taken ∧ ∃ cs, s'.reader = .free value cs := by
  have hr := h.reader
  have howns := h.owns
  rw [hat] at hr
  rw [owned, hat] at howns
  refine ⟨_, rfl, ⟨base, blocks, x, wh, ?_⟩, rfl, s.spareChunk, rfl⟩
  exact { h with
    owns := by
      refine howns.of_perm (List.Perm.append_left _ ?_)
      simp only [readerHand, Option.toList_some]
      rw [← List.append_assoc]
      exact List.perm_append_comm.trans (List.perm_append_comm.append_left _)
    writer := h.writer.transfer rfl rfl rfl rfl rfl id rfl fun _ _ => rfl
    reader := hr }

/-- The chunk that was the spare one is released. -/
theorem Shape.readerFree (h : Shape N s base blocks x wh) (hN : 0 < N) {value : E} {cs : Option ℕ}
    (hat : s.reader = .free value cs) : ∃ s', read N s (.free value cs) = some s' ∧
      Inv N s' ∧ s'.taken = s.taken ∧ s'.reader = .done true (some value) := by
  have hr := h.reader
  have howns := h.owns
  rw [hat] at hr
  rw [owned, hat] at howns
  cases cs with
  | none =>
    refine ⟨_, rfl, ⟨base, blocks, x, wh, ?_⟩, rfl, rfl⟩
    exact { h with
      owns := howns
      writer := h.writer.transfer rfl rfl rfl rfl rfl id rfl fun _ _ => rfl
      reader := hr }
  | some p =>
    have hheld : Owns s.heap (p :: (blocks.drop base ++ (s.spareChunk.toList ++ wh.toList))) := by
      refine howns.of_perm ?_
      rw [← List.append_assoc, ← List.append_assoc, ← List.append_assoc]
      exact List.perm_append_singleton _ _
    obtain ⟨chunk, hchunk⟩ := hheld.exists_of_mem List.mem_cons_self
    have hne : ∀ a ∈ blocks.drop base ++ (s.spareChunk.toList ++ wh.toList), a ≠ p := by
      rintro a ha rfl
      exact (List.nodup_cons.mp hheld.nodup).1 ha
    have hqueue : ∀ a ∈ blocks.drop base, a ≠ p := fun a ha => hne a (List.mem_append_left _ ha)
    have hread : read N s (.free value (some p)) =
        some { s.setChunk p none with reader := .done true (some value) } := by
      simp only [read, hchunk, Option.bind_eq_bind, Option.bind_some]
      rfl
    refine ⟨_, hread, ⟨base, blocks, x, wh, ?_⟩, rfl, rfl⟩
    exact { h with
      chunks := by
        refine h.chunks.congr (h.base_le hN) ?_ ?_ ?_
        · intro i a hi _ ha
          exact nextOf_update_of_ne (hqueue a (mem_drop_of_getElem? ha hi))
        · intro i a hi ha
          exact prevOf_update_of_ne (hqueue a (mem_drop_of_getElem? ha (hi.trans (Nat.le_succ i))))
        · intro a ha
          exact valuesOf_update_of_ne (hqueue a ha)
      owns := by
        have hrest := hheld.release
        rw [owned]
        simp only [readerHand, List.append_nil]
        exact hrest
      writer := by
        refine h.writer.transfer rfl rfl rfl rfl rfl id ?_ ?_
        · exact nextOf_update_of_ne (hqueue _ (h.end_mem hN))
        · rintro sc rfl
          exact prevOf_update_of_ne (hne sc (by simp))
      reader := hr }

end CServer.Queues.Ypipe
