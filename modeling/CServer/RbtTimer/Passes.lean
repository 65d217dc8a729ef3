import CServer.RbtTimer.Timer

/-!
# Passes of expire_timer while the clock wraps

`ngx_rbtree_insert_timer_value` compares keys by the sign of their difference, `expire_timer`
compares them with the time as unsigned numbers. Both agree with the true times while the deadlines
on the way of an insertion are less than half a turn of the clock apart, and while a pass, the
timers that are due at it and the next one after it are in the same turn.
-/
namespace CServer.RbtTimer

open RedBlack RedBlack.ColorTree
open Timers (Timespec currentTime)

/-! ## Runs -/

/-- A call of `add_timer` for a new entry, or of `expire_timer`. -/
inductive Call where
  | add (te : Addr) (handler : ℕ) (msec : UInt32) (ti : Timespec)
  | pass (ti : Timespec)

/-- What a call has done, and when. -/
inductive Event where
  | added (now : ℕ) (e : Cell TimerEntry)
  | passed (now : ℕ) (fired : List (Cell TimerEntry))

def Call.run (turns : ℕ) (nil : Addr) (t : Tree) : Call → Except Fault (Event × Tree)
  | .add te handler msec ti => do
    let t ← addTimer turns nil te msec ti (newEntry te handler t)
    .ok (.added (trueTime ti) ⟨te, keyed msec ti handler⟩, t)
  | .pass ti => do
    let out ← expireTimer turns nil ti t
    .ok (.passed (trueTime ti) out.1, out.2)

/-- `malloc` gives an address that is not in use. -/
def Call.Fresh (t : Tree) : Call → Prop
  | .add te _ _ _ => t.heap te = none
  | .pass _ => True

/-- The timers after some calls have returned, where each call was allowed. -/
inductive Reached (nil : Addr) (Allowed : List Event → Tree → Call → Prop) :
    List Event → Tree → Prop
  | start : Reached nil Allowed [] (initTimer nil)
  | call {events t out} {c : Call} (before : Reached nil Allowed events t) (fresh : c.Fresh t)
      (allowed : Allowed events t c) (returns : Returns (fun turns => c.run turns nil t) out) :
      Reached nil Allowed (events ++ [out.1]) out.2

/-- The timers that wait after one more event: a pass takes out those whose deadline has come. -/
def nextWaiting (l : List (Cell TimerEntry)) : Event → List (Cell TimerEntry)
  | .added _ e => l ++ [e]
  | .passed now _ => l.filter (fun e => now < e.value.deadline)

/-- The timers for which no pass has come at or after the deadline. -/
def waiting (events : List Event) : List (Cell TimerEntry) := events.foldl nextWaiting []

/-- Each pass calls the handlers of exactly the timers that have waited for it, once each. -/
def OnTime (events : List Event) : Prop :=
  ∀ earlier now fired later, events = earlier ++ .passed now fired :: later →
    fired.Perm ((waiting earlier).filter (fun e => e.value.deadline ≤ now))

/-- The deadline is less than half a turn of the clock away from those of the timers on the way of
the insertion. A pass, the timers that are due at it and one that is not are in the same turn. -/
def Regular (nil : Addr) (events : List Event) (t : Tree) : Call → Prop
  | .add _ _ msec ti => ∀ q T, Shows nil q t T →
    ∀ f ∈ descend (fun e => msec.toNat + trueTime ti < e.value.deadline) [] T,
      msec.toNat + trueTime ti < f.label.value.deadline + 2 ^ 31 ∧
        f.label.value.deadline ≤ msec.toNat + trueTime ti + 2 ^ 31
  | .pass ti =>
    (∀ e ∈ waiting events, e.value.deadline ≤ trueTime ti →
      e.value.deadline / 2 ^ 32 = trueTime ti / 2 ^ 32) ∧
    ((∃ e ∈ waiting events, trueTime ti < e.value.deadline) →
      ∃ e ∈ waiting events, trueTime ti < e.value.deadline ∧
        e.value.deadline / 2 ^ 32 = trueTime ti / 2 ^ 32)

variable {nil te : Addr} {t : Tree} {T : ColorTree (Cell TimerEntry)} {l : List (Cell TimerEntry)}
variable {events : List Event} {ti : Timespec} {msec : UInt32} {handler : ℕ}

/-! ## The two comparisons -/

theorem toNat_currentTime (ti : Timespec) : (currentTime ti).toNat = trueTime ti % 2 ^ 32 := by
  rw [currentTime, trueTime, UInt32.toNat_add, UInt32.toNat_mul, UInt32.toNat_ofNat',
    UInt32.toNat_ofNat', ← Nat.add_mod]
  show (ti.tvSec % 2 ^ 32 * 1000 + ti.tvNsec / 1000000) % 2 ^ 32 = _
  omega

theorem toNat_keyed : (keyed msec ti handler).key.toNat = (keyed msec ti handler).deadline % 2 ^ 32 := by
  show (msec + currentTime ti).toNat = (msec.toNat + trueTime ti) % 2 ^ 32
  rw [UInt32.toNat_add, toNat_currentTime, Nat.add_mod_mod]

/-- The sign of the difference tells which of two times less than half a turn apart is first. -/
theorem lessTimer_eq {a b : UInt32} {d e : ℕ} (ha : a.toNat = d % 2 ^ 32) (hb : b.toNat = e % 2 ^ 32)
    (hd : d < e + 2 ^ 31) (he : e ≤ d + 2 ^ 31) : lessTimer a b = decide (d < e) := by
  have hsign : (a - b).toInt32 < 0 ↔ 2 ^ 32 ≤ 2 * (a - b).toNat := by
    rw [Int32.lt_iff_toInt_lt]
    exact BitVec.toInt_neg_iff
  have hdifference : (a - b).toNat = (2 ^ 32 - b.toNat + a.toNat) % 2 ^ 32 := UInt32.toNat_sub a b
  rw [lessTimer, decide_eq_decide, hsign, hdifference, ha, hb]
  omega

/-- A timer in the same turn of the clock has a key up to the time if its deadline has come. -/
theorem key_le_iff {key now : UInt32} {d n : ℕ} (hkey : key.toNat = d % 2 ^ 32)
    (hnow : now.toNat = n % 2 ^ 32) (hsame : d / 2 ^ 32 = n / 2 ^ 32) : key ≤ now ↔ d ≤ n := by
  rw [UInt32.le_iff_toNat_le, hkey, hnow]
  omega

/-! ## What the calls keep -/

/-- The tree holds the timers `l` in the order of their deadlines, under the deadlines modulo
2^32. -/
structure Ordered (nil : Addr) (t : Tree) (T : ColorTree (Cell TimerEntry))
    (l : List (Cell TimerEntry)) : Prop where
  shown : ∃ q, Shows nil q t T
  valid : Valid T
  contents : T.toList.Perm l
  sorted : T.toList.Pairwise (fun a b => a.value.deadline ≤ b.value.deadline)
  keys : ∀ e ∈ T.toList, e.value.key.toNat = e.value.deadline % 2 ^ 32

theorem Ordered.empty (nil : Addr) : Ordered nil (initTimer nil) leaf [] where
  shown := by
    have hnil : (initTimer nil).heap nil = some ⟨null, null, null, .black, ⟨0, 0, 0⟩⟩ := by
      simp [initTimer, ngxRbtreeInit]
    exact ⟨null, ⟨trivial, List.nodup_nil, List.not_mem_nil, List.not_mem_nil⟩, rfl, _, hnil, rfl,
      rfl⟩
  valid := ⟨rfl, 0, .leaf⟩
  contents := .nil
  sorted := .nil
  keys := fun _ he => absurd he List.not_mem_nil

/-- A deadline near enough to those on the way gets its place in the order. -/
theorem Ordered.add (h : Ordered nil t T l) (handler : ℕ) (hfresh : t.heap te = none)
    (hnear : ∀ f ∈ descend (fun e => msec.toNat + trueTime ti < e.value.deadline) [] T,
      msec.toNat + trueTime ti < f.label.value.deadline + 2 ^ 31 ∧
        f.label.value.deadline ≤ msec.toNat + trueTime ti + 2 ^ 31) :
    ∃ t' T', Returns (fun turns => addTimer turns nil te msec ti (newEntry te handler t)) t' ∧
      Ordered nil t' T' (l ++ [⟨te, keyed msec ti handler⟩]) := by
  obtain ⟨q, hshows⟩ := h.shown
  obtain ⟨K, hK⟩ : ∃ K, descend
      (fun e : Cell TimerEntry => msec.toNat + trueTime ti < e.value.deadline) [] T = K := ⟨_, rfl⟩
  have hlist : T.toList = before K ++ after K := by
    have hfill := toList_fill K (leaf : ColorTree (Cell TimerEntry))
    rwa [← hK, fill_descend, hK, toList, List.append_nil] at hfill
  have hdivides : Divides
      (fun e : Cell TimerEntry => msec.toNat + trueTime ti < e.value.deadline) K := by
    rw [← hK]
    apply divides_nil.descend
    apply h.sorted.imp
    intro a b hab ha
    exact decide_eq_true (lt_of_lt_of_le (of_decide_eq_true ha) hab)
  have hbefore : ∀ e ∈ before K, e.value.deadline ≤ msec.toNat + trueTime ti :=
    fun e he => not_lt.mp (of_decide_eq_false (hdivides.before e he))
  have hafter : ∀ e ∈ after K, msec.toNat + trueTime ti < e.value.deadline :=
    fun e he => of_decide_eq_true (hdivides.after e he)
  have hless : ∀ f ∈ K, lessTimer (keyed msec ti handler).key f.label.value.key =
      decide (msec.toNat + trueTime ti < f.label.value.deadline) := by
    intro f hf
    have hmem : f.label ∈ T.toList := by
      rw [hlist]
      exact label_mem_of_frame hf
    obtain ⟨hd, he⟩ := hnear f (by rwa [hK])
    exact lessTimer_eq toNat_keyed (h.keys _ hmem) hd he
  obtain ⟨t', T', hreturns, hshows', hvalid', hlist'⟩ :=
    addTimer_spec hshows h.valid hfresh (by rwa [hK])
  rw [hK] at hlist'
  refine ⟨t', T', hreturns, hshows', hvalid', ?_, ?_, ?_⟩
  · rw [hlist']
    refine List.perm_middle.trans ((List.Perm.cons _ ?_).trans (List.perm_append_singleton _ _).symm)
    rw [← hlist]
    exact h.contents
  · have hsorted := h.sorted
    rw [hlist, List.pairwise_append] at hsorted
    rw [hlist', List.pairwise_append, List.pairwise_cons]
    refine ⟨hsorted.1, ⟨fun b hb => (hafter b hb).le, hsorted.2.1⟩, ?_⟩
    intro a ha b hb
    rcases List.mem_cons.mp hb with rfl | hb
    · exact hbefore a ha
    · exact hsorted.2.2 a ha b hb
  · intro e he
    rw [hlist', List.mem_append, List.mem_cons, or_left_comm, ← List.mem_append, ← hlist] at he
    rcases he with rfl | he
    · exact toNat_keyed
    · exact h.keys e he

/-- A pass in one turn of the clock with the timers that are due, and with one that is not, calls
the handlers of those that are due. -/
theorem Ordered.pass (h : Ordered nil t T l)
    (hdue : ∀ e ∈ l, e.value.deadline ≤ trueTime ti →
      e.value.deadline / 2 ^ 32 = trueTime ti / 2 ^ 32)
    (hlate : (∃ e ∈ l, trueTime ti < e.value.deadline) →
      ∃ e ∈ l, trueTime ti < e.value.deadline ∧
        e.value.deadline / 2 ^ 32 = trueTime ti / 2 ^ 32) :
    ∃ fired t' T', Returns (fun turns => expireTimer turns nil ti t) (fired, t') ∧
      fired.Perm (l.filter (fun e => e.value.deadline ≤ trueTime ti)) ∧
      Ordered nil t' T' (l.filter (fun e => trueTime ti < e.value.deadline)) := by
  obtain ⟨q, hshows⟩ := h.shown
  have hright : ∀ as e bs, T.toList = as ++ e :: bs →
      (∀ a ∈ as, a.value.deadline ≤ trueTime ti) →
      decide (e.value.key ≤ currentTime ti) = decide (e.value.deadline ≤ trueTime ti) := by
    intro as e bs hsplit has
    have he : e ∈ T.toList := by
      rw [hsplit]
      exact List.mem_append_right _ List.mem_cons_self
    have hsame : e.value.deadline / 2 ^ 32 = trueTime ti / 2 ^ 32 := by
      by_cases hnow : e.value.deadline ≤ trueTime ti
      · exact hdue e (h.contents.mem_iff.mp he) hnow
      · -- `e` is the first one that is not due, so its deadline is between the time and `d`'s.
        obtain ⟨d, hd, hlater, hsame⟩ :=
          hlate ⟨e, h.contents.mem_iff.mp he, not_le.mp hnow⟩
        have hed : e.value.deadline ≤ d.value.deadline := by
          have hsorted := h.sorted
          have hd := h.contents.mem_iff.mpr hd
          rw [hsplit] at hd hsorted
          rcases List.mem_append.mp hd with hd | hd
          · exact absurd (has d hd) (not_le.mpr hlater)
          · rcases List.mem_cons.mp hd with rfl | hd
            · exact le_rfl
            · exact (List.pairwise_cons.mp (List.pairwise_append.mp hsorted).2.1).1 d hd
        omega
    rw [decide_eq_decide]
    exact key_le_iff (h.keys e he) (toNat_currentTime ti) hsame
  obtain ⟨htake, hdrop⟩ := Timers.takeWhile_of_sorted h.sorted hright
  obtain ⟨t', T', hreturns, hshows', hvalid', hlist'⟩ :=
    expireLoop_spec (currentTime ti) hshows h.valid rfl
  rw [htake] at hreturns
  rw [hdrop] at hlist'
  refine ⟨_, t', T', hreturns, h.contents.filter _, hshows', hvalid', ?_, ?_, ?_⟩
  · rw [hlist']
    exact h.contents.filter _
  · rw [hlist']
    exact h.sorted.filter _
  · intro e he
    rw [hlist'] at he
    exact h.keys e (List.mem_of_mem_filter he)

/-! ## The calls of a run -/

theorem waiting_append (events : List Event) (event : Event) :
    waiting (events ++ [event]) = nextWaiting (waiting events) event := by
  rw [waiting, List.foldl_append]
  rfl

theorem OnTime.added {now : ℕ} {e : Cell TimerEntry} (h : OnTime events) :
    OnTime (events ++ [.added now e]) := by
  intro earlier now' fired later hsplit
  rcases later.eq_nil_or_concat' with rfl | ⟨later, last, rfl⟩
  · exact absurd (List.append_inj_right' hsplit rfl) (by simp)
  · rw [← List.cons_append, ← List.append_assoc] at hsplit
    exact h earlier now' fired later (List.append_inj_left' hsplit rfl)

theorem OnTime.passed {now : ℕ} {fired : List (Cell TimerEntry)} (h : OnTime events)
    (hfired : fired.Perm ((waiting events).filter (fun e => e.value.deadline ≤ now))) :
    OnTime (events ++ [.passed now fired]) := by
  intro earlier now' fired' later hsplit
  rcases later.eq_nil_or_concat' with rfl | ⟨later, last, rfl⟩
  · obtain ⟨rfl, hlast⟩ := List.append_inj' hsplit rfl
    obtain ⟨rfl, rfl⟩ := Event.passed.inj (List.singleton_inj.mp hlast)
    exact hfired
  · rw [← List.cons_append, ← List.append_assoc] at hsplit
    exact h earlier now' fired' later (List.append_inj_left' hsplit rfl)

/-- A regular call returns, and a pass calls the handlers that have waited for it. -/
theorem Ordered.call {c : Call} (h : Ordered nil t T (waiting events)) (hfresh : c.Fresh t)
    (hregular : Regular nil events t c) :
    ∃ out T', Returns (fun turns => c.run turns nil t) out ∧
      Ordered nil out.2 T' (waiting (events ++ [out.1])) ∧
      (OnTime events → OnTime (events ++ [out.1])) := by
  cases c with
  | add te handler msec ti =>
    obtain ⟨q, hshows⟩ := h.shown
    obtain ⟨t', T', hreturns, hordered⟩ :=
      h.add handler hfresh (hregular q T hshows)
    refine ⟨(.added (trueTime ti) ⟨te, keyed msec ti handler⟩, t'), T', ?_, ?_, OnTime.added⟩
    · exact hreturns.bind (Returns.of_eq (fun _ => rfl))
    · rw [waiting_append]
      exact hordered
  | pass ti =>
    obtain ⟨fired, t', T', hreturns, hfired, hordered⟩ := h.pass hregular.1 hregular.2
    refine ⟨(.passed (trueTime ti) fired, t'), T', ?_, ?_, fun hontime => hontime.passed hfired⟩
    · exact hreturns.bind (Returns.of_eq (fun _ => rfl))
    · rw [waiting_append]
      exact hordered

theorem Reached.ordered (h : Reached nil (Regular nil) events t) :
    (∃ T, Ordered nil t T (waiting events)) ∧ OnTime events := by
  induction h with
  | start => exact ⟨⟨leaf, .empty nil⟩, fun earlier _ _ _ hsplit => absurd hsplit (by simp)⟩
  | call _ fresh allowed returns ih =>
    obtain ⟨⟨T, hordered⟩, hontime⟩ := ih
    obtain ⟨out, T', hreturns, hordered', hontime'⟩ := hordered.call fresh allowed
    obtain rfl := returns.unique hreturns
    exact ⟨⟨T', hordered'⟩, hontime' hontime⟩

/-- In a run of regular calls each timer's handler is called once, in the first pass at or after its
deadline, and the next regular call returns. -/
theorem regular_passes_on_time (h : Reached nil (Regular nil) events t) :
    OnTime events ∧ ∀ c : Call, c.Fresh t → Regular nil events t c →
      ∃ out, Returns (fun turns => c.run turns nil t) out := by
  obtain ⟨⟨T, hordered⟩, hontime⟩ := h.ordered
  refine ⟨hontime, fun c hfresh hregular => ?_⟩
  obtain ⟨out, -, hreturns, -⟩ := hordered.call hfresh hregular
  exact ⟨out, hreturns⟩

/-- What a call makes of the timers if three turns of its loops are enough. -/
def afterCall (t : Tree) (c : Call) : Tree :=
  match c.run 3 9 t with
  | .ok out => out.2
  | .error _ => t

theorem Reached.next {Allowed : List Event → Tree → Call → Prop}
    (h : Reached 9 Allowed events t) (c : Call) (event : Event) (hfresh : c.Fresh t)
    (hallowed : Allowed events t c)
    (hok : ∀ more, c.run (more + 3) 9 t = .ok (event, afterCall t c)) :
    Reached 9 Allowed (events ++ [event]) (afterCall t c) :=
  .call h hfresh hallowed (Returns.of_add hok)

theorem Shows.eq_leaf {q : Addr} (h : Shows nil q t T) (hroot : t.root = nil) : T = leaf :=
  (Rep.ptr_eq_nil_iff (K := []) h.rep).mp (h.root.symm.trans hroot)

/-- The timer that is added after a second with a delay of half a second. -/
def halfSecond : Cell TimerEntry := ⟨1, keyed 500 ⟨1, 0⟩ 7⟩

theorem regular_passes_on_time_single :
    ∃ t, Reached 9 (Regular 9)
        [.added 1000 halfSecond, .passed 1400 [], .passed 1600 [halfSecond]] t ∧
      OnTime [.added 1000 halfSecond, .passed 1400 [], .passed 1600 [halfSecond]] := by
  have hstart : Reached 9 (Regular 9) [] (initTimer 9) := .start
  have hempty : Regular 9 [] (initTimer 9) (.add 1 7 500 ⟨1, 0⟩) := by
    intro q T hshows
    rw [hshows.eq_leaf rfl]
    exact fun f hf => absurd hf List.not_mem_nil
  have hadd := hstart.next (.add 1 7 500 ⟨1, 0⟩) (.added 1000 halfSecond) rfl hempty
    (fun more => rfl)
  have hearly := hadd.next (.pass ⟨1, 400000000⟩) (.passed 1400 []) trivial
    ⟨by decide, by decide⟩ (fun more => rfl)
  have hlate := hearly.next (.pass ⟨1, 600000000⟩) (.passed 1600 [halfSecond]) trivial
    ⟨by decide, by decide⟩ (fun more => rfl)
  exact ⟨_, hlate, (regular_passes_on_time hlate).1⟩

/-! ## A pass that comes too early -/

/-- The time of the last pass. -/
def lastPass (events : List Event) : Option ℕ :=
  events.foldl (fun last event => match event with
    | .added _ _ => last
    | .passed now _ => some now) none

def Event.time : Event → ℕ
  | .added now _ => now
  | .passed now _ => now

/-- Time goes forward, a delay is below 2^31 ms, and so is the time between two passes. -/
def Promised (events : List Event) (_ : Tree) : Call → Prop
  | .add _ _ msec ti => (∀ event ∈ events, event.time ≤ trueTime ti) ∧ ti.tvNsec < 10 ^ 9 ∧
    msec.toNat < 2 ^ 31
  | .pass ti => (∀ event ∈ events, event.time ≤ trueTime ti) ∧ ti.tvNsec < 10 ^ 9 ∧
    ∀ now ∈ lastPass events, trueTime ti < now + 2 ^ 31

/-- A second before the clock wraps. -/
def beforeWrap : Timespec := ⟨4294966, 296000000⟩

/-- The timer that is added with a delay of two seconds then: its key is 1000. -/
def wrapped : Cell TimerEntry := ⟨1, keyed 2000 beforeWrap 7⟩

theorem afterPass_reached : ∃ t, Reached 9 Promised
    [.added 4294966296 wrapped, .passed 4294966296 [wrapped]] t := by
  have hstart : Reached 9 Promised [] (initTimer 9) := .start
  have hadd := hstart.next (.add 1 7 2000 beforeWrap) (.added 4294966296 wrapped) rfl
    ⟨by decide, by decide, by decide⟩ (fun more => rfl)
  have hpass := hadd.next (.pass beforeWrap) (.passed 4294966296 [wrapped]) trivial
    ⟨by decide, by decide, by decide⟩ (fun more => rfl)
  exact ⟨_, hpass⟩

/-- Two seconds early: the handler is called at once. -/
theorem pass_too_early : ¬∀ nil events t, Reached nil Promised events t → OnTime events := by
  intro h
  obtain ⟨t, hreached⟩ := afterPass_reached
  have hperm := h 9 _ t hreached [.added 4294966296 wrapped] 4294966296 [wrapped]
    [] rfl
  have hlength := hperm.length_eq
  revert hlength
  decide

end CServer.RbtTimer
