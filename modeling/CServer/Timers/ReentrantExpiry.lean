import CServer.Timers.Cancellation
import Mathlib.Data.Multiset.DershowitzManna
import Mathlib.Tactic.Abel

/-!
# Handlers that add and cancel timers

`expire_timer` removes the head of the list after its handler ran, whichever node the head is
by then. The pass does what it should when the timer whose handler ran is still the first
one, and when the handler cancels only first nodes of their scores and not its own timer.
Under that condition the pass also ends: a handler leaves only later deadlines behind.
-/
namespace CServer.Timers

open Linked

variable {H : Type} {zsl zsl' zsl₀ : Zskiplist H} {l l' p q : List (Entry H)} {e x : Entry H}
  {actions : List (Action H)} {script : ℕ → List (Action H)} {now : UInt32} {n : ℕ}

/-! ## Counting events -/

def Event.added? : Event H → Option (Entry H)
  | .added e => some e
  | _ => none

def Event.cancelled? : Event H → Option (Entry H)
  | .cancelled e => some e
  | _ => none

def Event.touched? : Event H → Option (Entry H)
  | .touched e => some e
  | _ => none

/-- The timers that were added. -/
def addedIn (events : List (Event H)) : List (Entry H) := events.filterMap Event.added?

/-- The timers that were given to `del_timer`. -/
def cancelledIn (events : List (Event H)) : List (Entry H) := events.filterMap Event.cancelled?

/-- The timers whose handlers were called, in order. -/
def touchedIn (events : List (Event H)) : List (Entry H) := events.filterMap Event.touched?

/-- Every timer that was there or was added was touched once, cancelled once or is left, and
no two of these; nothing else is left. -/
def Accounts (l : List (Entry H)) (events : List (Event H)) (l' : List (Entry H)) : Prop :=
  (l : Multiset (Entry H)) + addedIn events = touchedIn events + cancelledIn events + l'

theorem Accounts.nil (l : List (Entry H)) : Accounts l [] l := by
  simp [Accounts, addedIn, touchedIn, cancelledIn]

theorem Accounts.append {l'' : List (Entry H)} {events events' : List (Event H)}
    (h : Accounts l events l') (h' : Accounts l' events' l'') :
    Accounts l (events ++ events') l'' := by
  unfold Accounts addedIn touchedIn cancelledIn at *
  simp only [List.filterMap_append, ← Multiset.coe_add]
  rw [← add_assoc, h, add_assoc, h']
  abel

theorem Accounts.added (l : List (Entry H)) (e : Entry H) :
    Accounts l [.added e] (l.orderedInsert Entry.Before e) := by
  have hperm : (l.orderedInsert Entry.Before e : Multiset (Entry H)) = {e} + l :=
    Multiset.coe_eq_coe.mpr (List.perm_orderedInsert Entry.Before e l)
  simp only [Accounts, addedIn, touchedIn, cancelledIn, Event.added?, Event.touched?,
    Event.cancelled?, List.filterMap_cons, List.filterMap_nil, hperm, Multiset.coe_nil,
    Multiset.coe_singleton, zero_add]
  rw [add_comm]

theorem Accounts.cancelled (h : (l : Multiset (Entry H)) = e ::ₘ ↑l') :
    Accounts l [.cancelled e] l' := by
  simp only [Accounts, addedIn, touchedIn, cancelledIn, Event.added?, Event.touched?,
    Event.cancelled?, List.filterMap_cons, List.filterMap_nil, h, Multiset.coe_nil,
    Multiset.coe_singleton, zero_add, add_zero]
  rfl

theorem Accounts.touched (e : Entry H) (l : List (Entry H)) :
    Accounts (e :: l) [.touched e] l := by
  simp only [Accounts, addedIn, touchedIn, cancelledIn, Event.added?, Event.touched?,
    Event.cancelled?, List.filterMap_cons, List.filterMap_nil, Multiset.coe_nil,
    Multiset.coe_singleton, add_zero]
  rfl

/-! ## What a handler may do -/

/-- `malloc` returns an address that is not allocated, and only a pending timer is given to
`del_timer`. -/
def Action.Admissible (zsl : Zskiplist H) : Action H → Prop
  | .addTimer _ _ _ _ x => zsl.heap x = none
  | .delTimer zn => InList zsl zn

/-- A timer that is cancelled is not the one whose handler runs, and is the first of its
score. -/
def Action.Considerate (x : Entry H) (zsl : Zskiplist H) : Action H → Prop
  | .addTimer _ _ _ _ _ => True
  | .delTimer zn => zn ≠ x.addr ∧ ∀ l e, Represents zsl l → e ∈ l → e.addr = zn → FirstOfScore l e

/-- Every action meets the guard in the state it is done in, and the last state meets `P`. -/
def Guarded (G : Zskiplist H → Action H → Prop) (P : Zskiplist H → Prop) :
    Zskiplist H → List (Action H) → Prop
  | zsl, [] => P zsl
  | zsl, a :: actions =>
    G zsl a ∧ ∀ event zsl', a.run zsl = .ok (event, zsl') → Guarded G P zsl' actions

/-- The states at the head of the loop of `expire_timer`, with the number of handlers called
before. -/
inductive LoopHead (script : ℕ → List (Action H)) (now : UInt32) (zsl₀ : Zskiplist H) :
    ℕ → Zskiplist H → Prop
  | start : LoopHead script now zsl₀ 0 zsl₀
  | turn {n zsl x l events zsl₁ zsl₂} (before : LoopHead script now zsl₀ n zsl)
      (first : Represents zsl (x :: l)) (due : x.score ≤ now.toNat)
      (handler : runActions zsl (script n) = .ok (events, zsl₁))
      (delete : zslDeleteHead zsl₁ = .ok zsl₂) : LoopHead script now zsl₀ (n + 1) zsl₂

/-- The calls every handler of the pass makes can be made. -/
def AdmissibleScript (script : ℕ → List (Action H)) (now : UInt32) (zsl₀ : Zskiplist H) : Prop :=
  ∀ n zsl x l, LoopHead script now zsl₀ n zsl → Represents zsl (x :: l) → x.score ≤ now.toNat →
    Guarded Action.Admissible (fun _ => True) zsl (script n)

/-- No handler of the pass cancels its own timer or one that is not the first of its score,
and when it returns its own timer is still the first of the list. -/
def ConsiderateScript (script : ℕ → List (Action H)) (now : UInt32) (zsl₀ : Zskiplist H) : Prop :=
  ∀ n zsl x l, LoopHead script now zsl₀ n zsl → Represents zsl (x :: l) → x.score ≤ now.toNat →
    Guarded (Action.Considerate x) (fun zsl' => zslMin zsl' = .ok (some x.addr)) zsl (script n)

/-! ## One handler -/

/-- Where a new timer goes in relation to `x`. -/
theorem orderedInsert_around (h : (p ++ x :: q).Pairwise Entry.Before) (e : Entry H) :
    ∃ p' q', (p ++ x :: q).orderedInsert Entry.Before e = p' ++ x :: q' ∧
      (q' = q ∨ x.score < e.score ∧ q' = q.orderedInsert Entry.Before e) := by
  induction p with
  | nil =>
    by_cases hle : e.score ≤ x.score
    · exact ⟨[e], q, List.orderedInsert_cons_of_le Entry.Before q hle, Or.inl rfl⟩
    · exact ⟨[], q.orderedInsert Entry.Before e,
        List.orderedInsert_of_not_le (r := Entry.Before) q hle, Or.inr ⟨not_le.mp hle, rfl⟩⟩
  | cons d p ih =>
    obtain ⟨hd, hp⟩ := List.pairwise_cons.mp h
    by_cases hle : e.score ≤ d.score
    · exact ⟨e :: d :: p, q, List.orderedInsert_cons_of_le Entry.Before _ hle, Or.inl rfl⟩
    · obtain ⟨p', q', heq, hcase⟩ := ih hp
      refine ⟨d :: p', q', ?_, hcase⟩
      rw [List.cons_append, List.orderedInsert_of_not_le (r := Entry.Before) _ hle, heq,
        List.cons_append]

/-- Cancelling a first node in relation to the other ones. -/
theorem Represents.delTimer_filter (r : Represents zsl l) (h : FirstOfScore l e) :
    ∃ zsl', delTimer zsl e.addr = .ok zsl' ∧
      Represents zsl' (l.filter (fun d => d.addr ≠ e.addr)) ∧
      (l : Multiset (Entry H)) = e ::ₘ ↑(l.filter (fun d => d.addr ≠ e.addr)) := by
  obtain ⟨p, q, zsl', rfl, run, -, -, r'⟩ := r.delTimer_first h
  obtain ⟨zsl'', run', r'', -⟩ := (r.cancelsOnly_iff h.mem).mpr h
  have hsame : zsl'' = zsl' := Except.ok.inj (run'.symm.trans run)
  subst hsame
  refine ⟨zsl'', run, r'', ?_⟩
  rw [← r'.unique r'']
  exact Multiset.coe_eq_coe.mpr List.perm_middle

/-- The list while a handler runs: the timer whose handler runs is in it, and behind it are
only timers that were behind it before and new ones with a later deadline. -/
def Behind (x : Entry H) (later : List (Entry H)) (l : List (Entry H)) : Prop :=
  ∃ p q, ∃ new : Multiset (Entry H), l = p ++ x :: q ∧
    (q : Multiset (Entry H)) ≤ later + new ∧ ∀ e ∈ new, x.score < e.score

/-- An action the handler may do keeps the list in this shape. -/
theorem Represents.handlerAction (r : Represents zsl l) {later : List (Entry H)}
    (behind : Behind x later l) {a : Action H} (admissible : a.Admissible zsl)
    (considerate : a.Considerate x zsl) :
    ∃ event zsl' l', a.run zsl = .ok (event, zsl') ∧ Represents zsl' l' ∧
      Accounts l [event] l' ∧ touchedIn [event] = [] ∧ Behind x later l' := by
  obtain ⟨p, q, new, rfl, hq, hnew⟩ := behind
  cases a with
  | addTimer msec func ti level y =>
    set e : Entry H := ⟨y, deadline msec ti, func, level.val⟩ with he
    obtain ⟨zsl', run, -, -, r'⟩ := r.zslInsert admissible (deadline msec ti) func level
    refine ⟨.added e, zsl', _, ?_, r', Accounts.added _ _, rfl, ?_⟩
    · rw [Action.run, addTimer, run, ok_bind]
    · obtain ⟨p', q', heq, hcase⟩ := orderedInsert_around r.sorted e
      rcases hcase with rfl | ⟨hlate, rfl⟩
      · exact ⟨p', q', new, heq, hq, hnew⟩
      · refine ⟨p', _, e ::ₘ new, heq, ?_, ?_⟩
        · have hperm : (q.orderedInsert Entry.Before e : Multiset (Entry H)) = e ::ₘ ↑q :=
            Multiset.coe_eq_coe.mpr (List.perm_orderedInsert Entry.Before e q)
          rw [hperm, Multiset.add_cons]
          exact Multiset.cons_le_cons e hq
        · intro d hd
          rcases Multiset.mem_cons.mp hd with rfl | hd
          · exact hlate
          · exact hnew d hd
  | delTimer zn =>
    obtain ⟨e, hmem, rfl⟩ := r.mem_of_inList admissible
    obtain ⟨hne, first⟩ := considerate
    obtain ⟨zsl', run, r', hrest⟩ := r.delTimer_filter (first _ e r hmem rfl)
    refine ⟨.cancelled e, zsl', _, ?_, r', Accounts.cancelled hrest, rfl, ?_⟩
    · rw [Action.run, r.entry_eq hmem, ok_bind, run, ok_bind]
    · refine ⟨p.filter (fun d => d.addr ≠ e.addr), q.filter (fun d => d.addr ≠ e.addr), new,
        ?_, ?_, hnew⟩
      · rw [List.filter_append, List.filter_cons_of_pos (by simpa using Ne.symm hne)]
      · exact le_trans (Multiset.coe_le.mpr List.filter_sublist.subperm) hq

theorem Represents.handlerActions (r : Represents zsl l) {later : List (Entry H)}
    (behind : Behind x later l)
    (admissible : Guarded Action.Admissible (fun _ => True) zsl actions)
    (considerate : Guarded (Action.Considerate x)
      (fun zsl' => zslMin zsl' = .ok (some x.addr)) zsl actions) :
    ∃ events zsl' l', runActions zsl actions = .ok (events, zsl') ∧ Represents zsl' l' ∧
      Accounts l events l' ∧ touchedIn events = [] ∧ Behind x later l' ∧
      zslMin zsl' = .ok (some x.addr) := by
  induction actions generalizing zsl l with
  | nil => exact ⟨[], zsl, l, rfl, r, Accounts.nil l, rfl, behind, considerate⟩
  | cons a actions ih =>
    obtain ⟨event, zsl₁, l₁, run, r₁, account, quiet, behind₁⟩ :=
      r.handlerAction behind admissible.1 considerate.1
    obtain ⟨events, zsl', l', runs, r', accounts, quiet', behind', first⟩ :=
      ih r₁ behind₁ (admissible.2 event zsl₁ run) (considerate.2 event zsl₁ run)
    refine ⟨event :: events, zsl', l', ?_, r', account.append accounts, ?_, behind', first⟩
    · rw [runActions, run, ok_bind, runs, ok_bind]
    · rw [touchedIn, List.filterMap_cons] at *
      cases event <;> simp_all [Event.touched?]

/-- A turn of the loop: the due timer is touched and goes out, and what is left behind it was
there before or has a later deadline. -/
theorem Represents.handlerTurn (r : Represents zsl (x :: l))
    (admissible : Guarded Action.Admissible (fun _ => True) zsl actions)
    (considerate : Guarded (Action.Considerate x)
      (fun zsl' => zslMin zsl' = .ok (some x.addr)) zsl actions) :
    ∃ events zsl₁ zsl₂ l₂, ∃ new : Multiset (Entry H),
      runActions zsl actions = .ok (events, zsl₁) ∧ Timers.zslDeleteHead zsl₁ = .ok zsl₂ ∧
      Represents zsl₂ l₂ ∧ Accounts (x :: l) (.touched x :: events) l₂ ∧
      touchedIn events = [] ∧ (∀ e ∈ l₂, x.score ≤ e.score) ∧
      (l₂ : Multiset (Entry H)) ≤ l + new ∧ ∀ e ∈ new, x.score < e.score := by
  have behind : Behind x l (x :: l) := ⟨[], l, 0, rfl, by simp, by simp⟩
  obtain ⟨events, zsl₁, l₁, runs, r₁, accounts, quiet, ⟨p, q, new, rfl, hq, hnew⟩, first⟩ :=
    r.handlerActions behind admissible considerate
  -- the first node has the address of `x`, so that nothing is in front of `x`
  have hp : p = [] := by
    cases p with
    | nil => rfl
    | cons d p =>
      have haddr : d.addr = x.addr := by
        rw [r₁.zslMin_eq] at first
        exact Option.some.inj (Except.ok.inj first)
      have hdx := r₁.eq_of_addr (e := d) (by simp) (by simp) haddr
      have hnd := (List.nodup_cons.mp r₁.distinct).2
      subst hdx
      simp at hnd
  subst hp
  obtain ⟨zsl₂, delete, -, -, r₂⟩ := r₁.zslDeleteHead
  refine ⟨events, zsl₁, zsl₂, q, new, runs, delete, r₂, ?_, quiet, ?_, hq, hnew⟩
  · have hperm := accounts.append (Accounts.touched x q)
    unfold Accounts addedIn touchedIn cancelledIn at *
    simp only [List.filterMap_append, List.filterMap_cons, List.filterMap_nil, Event.added?,
      Event.touched?, Event.cancelled?, List.append_nil] at hperm ⊢
    rw [hperm, quiet]
    rfl
  · exact (List.pairwise_cons.mp r₁.sorted).1

/-! ## The pass -/

/-- The handlers of all timers that are due and were not cancelled were called, each once and
in the order of the deadlines, no other handler was, and all other timers are left. -/
structure FiresDue (now : UInt32) (l : List (Entry H)) (events : List (Event H))
    (l' : List (Entry H)) : Prop where
  accounts : Accounts l events l'
  due : ∀ e ∈ touchedIn events, e.score ≤ now.toNat
  left : ∀ e ∈ l', now.toNat < e.score
  ordered : (touchedIn events).Pairwise Entry.Before

/-- How far the due timers are from the end of the pass. -/
def remaining (now : UInt32) (l : Multiset (Entry H)) : Multiset ℕ :=
  (l.filter (fun e => e.score ≤ now.toNat)).map (fun e => now.toNat - e.score)

/-- One element is replaced by smaller ones. -/
theorem isDershowitzMannaLT_cons {α : Type*} [LinearOrder α] {a : α} {s t u : Multiset α}
    (h : s ≤ t + u) (hu : ∀ b ∈ u, b < a) : Multiset.IsDershowitzMannaLT s (a ::ₘ t) := by
  refine ⟨s ∩ t, s - t, a ::ₘ (t - s), Multiset.cons_ne_zero, ?_, ?_, ?_⟩
  · rw [add_comm, Multiset.sub_add_inter]
  · rw [Multiset.add_cons, Multiset.inter_comm, add_comm, Multiset.sub_add_inter]
  · intro b hb
    have hmem : b ∈ u := Multiset.mem_of_le (Multiset.sub_le_iff_le_add'.mpr h) hb
    exact ⟨a, Multiset.mem_cons_self _ _, hu b hmem⟩

theorem remaining_lt {new : Multiset (Entry H)} (due : x.score ≤ now.toNat)
    (h : (l' : Multiset (Entry H)) ≤ l + new) (hnew : ∀ e ∈ new, x.score < e.score) :
    Multiset.IsDershowitzMannaLT (remaining now (↑l' : Multiset (Entry H)))
      (remaining now (↑(x :: l) : Multiset (Entry H))) := by
  have hcons : remaining now (↑(x :: l) : Multiset (Entry H)) =
      (now.toNat - x.score) ::ₘ remaining now (↑l : Multiset (Entry H)) := by
    unfold remaining
    rw [← Multiset.cons_coe,
      Multiset.filter_cons_of_pos (p := fun e : Entry H => e.score ≤ now.toNat) _ due,
      Multiset.map_cons]
  rw [hcons]
  apply isDershowitzMannaLT_cons (u := remaining now new)
  · unfold remaining
    rw [← Multiset.map_add, ← Multiset.filter_add]
    exact Multiset.map_le_map (Multiset.filter_le_filter _ h)
  · intro b hb
    obtain ⟨e, he, rfl⟩ := Multiset.mem_map.mp hb
    obtain ⟨hmem, hdue⟩ := Multiset.mem_filter.mp he
    have := hnew e hmem
    omega

/-- From every head of the loop the pass ends, and fires what is due. -/
theorem Represents.pass (r : Represents zsl l) (head : LoopHead script now zsl₀ n zsl)
    (admissible : AdmissibleScript script now zsl₀)
    (considerate : ConsiderateScript script now zsl₀) :
    ∃ enough events zsl' l',
      (∀ turns, enough ≤ turns → expireLoop script now turns n zsl = .ok (events, zsl')) ∧
      Represents zsl' l' ∧ FiresDue now l events l' ∧
      ∀ bound, (∀ e ∈ l, bound ≤ e.score) → ∀ e ∈ touchedIn events, bound ≤ e.score := by
  -- on the distances of the due timers: a turn replaces one of them by smaller ones
  induction hm : remaining now (l : Multiset (Entry H)) using
      (Multiset.wellFounded_isDershowitzMannaLT (α := ℕ)).induction generalizing zsl l n with
  | _ m ih =>
    cases l with
    | nil =>
      refine ⟨1, [], zsl, [], ?_, r, ⟨Accounts.nil [], by simp [touchedIn], by simp,
        List.Pairwise.nil⟩, by simp [touchedIn]⟩
      intro turns hturns
      obtain ⟨turns, rfl⟩ : ∃ k, turns = k + 1 := ⟨turns - 1, by omega⟩
      rw [Timers.expireLoop, r.zslMin_eq, ok_bind]
      rfl
    | cons x l =>
      have first : zslMin zsl = .ok (some x.addr) := r.zslMin_eq
      have entry := r.entry_eq (e := x) (by simp)
      by_cases due : x.score ≤ now.toNat
      · obtain ⟨events, zsl₁, zsl₂, l₂, new, runs, delete, r₂, accounts, quiet, above, hle,
          hnew⟩ := r.handlerTurn (admissible n zsl x l head r due) (considerate n zsl x l head r due)
        obtain ⟨enough, rest, zsl', l', loop, r', fires, bounded⟩ :=
          ih (remaining now (↑l₂ : Multiset (Entry H))) (hm ▸ remaining_lt due hle hnew) r₂
            (.turn head r due runs delete) rfl
        have htouched : touchedIn (.touched x :: (events ++ rest)) = x :: touchedIn rest := by
          unfold touchedIn at *
          rw [List.filterMap_cons, List.filterMap_append, quiet, List.nil_append]
          rfl
        refine ⟨enough + 1, .touched x :: (events ++ rest), zsl', l', ?_, r', ?_, ?_⟩
        · intro turns hturns
          obtain ⟨turns, rfl⟩ : ∃ k, turns = k + 1 := ⟨turns - 1, by omega⟩
          have hno : ¬ x.score > now.toNat := not_lt.mpr due
          rw [Timers.expireLoop, first, ok_bind]
          show (zsl.heap.entry x.addr >>= _) = _
          rw [entry, ok_bind, if_neg hno, runs, ok_bind, delete, ok_bind,
            loop turns (by omega), ok_bind]
        · refine ⟨?_, ?_, fires.left, ?_⟩
          · exact accounts.append fires.accounts
          · rw [htouched]
            intro e he
            rcases List.mem_cons.mp he with rfl | he
            · exact due
            · exact fires.due e he
          · rw [htouched]
            exact List.pairwise_cons.mpr ⟨bounded x.score above, fires.ordered⟩
        · rw [htouched]
          intro bound hbound e he
          have hx := hbound x (by simp)
          rcases List.mem_cons.mp he with rfl | he
          · exact hx
          · exact le_trans hx (bounded x.score above e he)
      · refine ⟨1, [], zsl, x :: l, ?_, r, ⟨Accounts.nil _, by simp [touchedIn], ?_,
          List.Pairwise.nil⟩, by simp [touchedIn]⟩
        · intro turns hturns
          obtain ⟨turns, rfl⟩ : ∃ k, turns = k + 1 := ⟨turns - 1, by omega⟩
          rw [Timers.expireLoop, first, ok_bind]
          show (zsl.heap.entry x.addr >>= _) = _
          rw [entry, ok_bind, if_pos (not_le.mp due)]
        · intro e he
          have hlt : now.toNat < x.score := not_le.mp due
          rcases List.mem_cons.mp he with rfl | he
          · exact hlt
          · exact lt_of_lt_of_le hlt ((List.pairwise_cons.mp r.sorted).1 e he)

/-- For every reachable list and every choice of what the handlers do, within the condition,
one pass ends and calls the handler of every timer that is due and was not cancelled exactly
once, in the order of the deadlines, calls no other, and leaves every other timer. -/
theorem expireTimer_fires_due {m : Multiset ℕ} (reached : Reached zsl m)
    (script : ℕ → List (Action H)) (ti : Timespec)
    (admissible : AdmissibleScript script (currentTime ti) zsl)
    (considerate : ConsiderateScript script (currentTime ti) zsl) :
    ∃ l enough events zsl' l', Represents zsl l ∧
      (∀ turns, enough ≤ turns → expireTimer script ti turns zsl = .ok (events, zsl')) ∧
      Represents zsl' l' ∧ FiresDue (currentTime ti) l events l' := by
  obtain ⟨l, r, -⟩ := reached.represents
  obtain ⟨enough, events, zsl', l', loop, r', fires, -⟩ :=
    r.pass (n := 0) .start admissible considerate
  exact ⟨l, enough, events, zsl', l', r, loop, r', fires⟩

/-- Two timers that are due together. -/
theorem reached_two : ∃ zsl : Zskiplist Unit,
    Reached zsl {1, 2} ∧ Represents zsl [⟨1, 1, (), 1⟩, ⟨2, 2, (), 1⟩] := by
  have fresh₁ : (zslCreate 0 ()).heap 1 = none := by decide
  obtain ⟨zsl₁, run₁, -, info₁, r₁⟩ := (represents_zslCreate 0 ()).zslInsert fresh₁ 1 ()
    ⟨1, by decide, by decide⟩
  have fresh₂ : zsl₁.heap 2 = none := by
    rw [heap_eq_none_iff, info₁]
    decide
  obtain ⟨zsl₂, run₂, -, -, r₂⟩ := r₁.zslInsert fresh₂ 2 () ⟨1, by decide, by decide⟩
  refine ⟨zsl₂, ?_, r₂⟩
  have reached₁ : Reached zsl₁ (1 ::ₘ 0) :=
    .call (.insert 1 () ⟨1, by decide, by decide⟩ 1) (.create 0 ()) fresh₁ run₁
      (.insert 1 () _ 1 0)
  have reached₂ : Reached zsl₂ (2 ::ₘ 1 ::ₘ 0) :=
    .call (.insert 2 () ⟨1, by decide, by decide⟩ 2) reached₁ fresh₂ run₂ (.insert 2 () _ 2 _)
  rw [Multiset.cons_swap] at reached₂
  exact reached₂

/-- A pass over two timers whose first handler cancels the other one. -/
theorem expireTimer_fires_due_cancelling :
    ∃ (zsl : Zskiplist Unit) (l : List (Entry Unit)) (enough : ℕ) (events : List (Event Unit))
      (zsl' : Zskiplist Unit) (l' : List (Entry Unit)), Represents zsl l ∧
      (∀ turns, enough ≤ turns →
        expireTimer (fun n => if n = 0 then [.delTimer 2] else []) ⟨0, 5000000⟩ turns zsl =
          .ok (events, zsl')) ∧
      Represents zsl' l' ∧ FiresDue (currentTime ⟨0, 5000000⟩) l events l' := by
  obtain ⟨zsl, reached, r⟩ := reached_two
  have start : ∀ zsl₁, LoopHead (fun n => if n = 0 then [.delTimer 2] else [])
      (currentTime ⟨0, 5000000⟩) zsl 0 zsl₁ → zsl₁ = zsl := by
    intro zsl₁ head
    cases head
    rfl
  have admissible : AdmissibleScript (fun n => if n = 0 then [.delTimer 2] else [])
      (currentTime ⟨0, 5000000⟩) zsl := by
    intro n zsl₁ x l head first _
    cases n with
    | zero =>
      rw [start zsl₁ head]
      exact ⟨r.inList (e := ⟨2, 2, (), 1⟩) (by simp), fun _ _ _ => trivial⟩
    | succ n => trivial
  have considerate : ConsiderateScript (fun n => if n = 0 then [.delTimer 2] else [])
      (currentTime ⟨0, 5000000⟩) zsl := by
    intro n zsl₁ x l head first _
    cases n with
    | zero =>
      rw [start zsl₁ head] at first ⊢
      have hsplit := first.unique r
      obtain ⟨rfl, rfl⟩ := List.cons.inj hsplit
      refine ⟨⟨by decide, ?_⟩, ?_⟩
      · intro l e rl he haddr
        rw [rl.unique r] at he ⊢
        simp only [List.mem_cons, List.not_mem_nil, or_false] at he
        rcases he with rfl | rfl
        · exact absurd haddr (by decide)
        · decide
      · intro event zsl' run
        obtain ⟨zsl'', run', r'', -⟩ := r.delTimer_filter (e := ⟨2, 2, (), 1⟩) (by decide)
        rw [Action.run, r.entry_eq (e := ⟨2, 2, (), 1⟩) (by simp), ok_bind, run', ok_bind] at run
        have hsame := (Prod.mk.inj (Except.ok.inj run)).2
        subst hsame
        exact r''.zslMin_eq
    | succ n =>
      show zslMin zsl₁ = _
      exact first.zslMin_eq
  obtain ⟨l, enough, events, zsl', l', h⟩ :=
    expireTimer_fires_due reached _ ⟨0, 5000000⟩ admissible considerate
  exact ⟨zsl, l, enough, events, zsl', l', h⟩

/-- A handler that cancels its own timer: the timer behind it goes without having fired. -/
theorem ownCancellation_drops_next :
    ¬ ∀ (zsl : Zskiplist Unit) m (script : ℕ → List (Action Unit)) (ti : Timespec),
      Reached zsl m → AdmissibleScript script (currentTime ti) zsl →
      ∃ l enough events zsl' l', Represents zsl l ∧
        (∀ turns, enough ≤ turns → expireTimer script ti turns zsl = .ok (events, zsl')) ∧
        Represents zsl' l' ∧ FiresDue (currentTime ti) l events l' := by
  intro claim
  obtain ⟨zsl, reached, r⟩ := reached_two
  set own : Entry Unit := ⟨1, 1, (), 1⟩ with hown
  set other : Entry Unit := ⟨2, 2, (), 1⟩ with hother
  set script : ℕ → List (Action Unit) := fun n => if n = 0 then [.delTimer 1] else [] with hscript
  have admissible : AdmissibleScript script (currentTime ⟨0, 5000000⟩) zsl := by
    intro n zsl₁ x l head _ _
    cases n with
    | zero =>
      cases head
      exact ⟨r.inList (e := own) (by simp), fun _ _ _ => trivial⟩
    | succ n => trivial
  obtain ⟨l, enough, events, zsl', l', rl, loop, r', fires⟩ :=
    claim zsl _ script ⟨0, 5000000⟩ reached admissible
  -- the handler takes out its own node, and the loop then takes out the other one
  obtain ⟨zsl₁, run₁, r₁, -⟩ := r.delTimer_filter (e := own) (by decide)
  have left₁ : [own, other].filter (fun d => d.addr ≠ own.addr) = [other] := by decide
  rw [left₁] at r₁
  obtain ⟨zsl₂, run₂, -, -, r₂⟩ := r₁.zslDeleteHead
  have pass := loop (enough + 2) (by omega)
  have hnow : ¬ own.score > (currentTime ⟨0, 5000000⟩).toNat := by decide
  have actions : runActions zsl (script 0) = .ok ([.cancelled own], zsl₁) := by
    show runActions zsl [.delTimer own.addr] = _
    rw [runActions, Action.run, r.entry_eq (e := own) (by simp), ok_bind, run₁, ok_bind]
    rfl
  rw [expireTimer, expireLoop, r.zslMin_eq, ok_bind] at pass
  change (zsl.heap.entry own.addr >>= _) = _ at pass
  rw [r.entry_eq (e := own) (by simp), ok_bind, if_neg hnow, actions, ok_bind, run₂, ok_bind,
    expireLoop, r₂.zslMin_eq, ok_bind] at pass
  obtain ⟨hevents, hzsl⟩ := Prod.mk.inj (Except.ok.inj pass)
  subst hzsl
  have haccounts := fires.accounts
  rw [rl.unique r, r'.unique r₂, ← hevents] at haccounts
  have hmem : other ∈ (([own, other] : List (Entry Unit)) : Multiset (Entry Unit)) +
      addedIn ([.touched own, .cancelled own] : List (Event Unit)) := by simp
  have hout : other ∈ ([own] : Multiset (Entry Unit)) + ([own] : List (Entry Unit)) +
      ([] : List (Entry Unit)) := haccounts ▸ hmem
  revert hout
  decide

end CServer.Timers
