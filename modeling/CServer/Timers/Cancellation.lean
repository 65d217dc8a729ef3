import CServer.Timers.SlTimer
import Mathlib.Data.Multiset.Filter

/-!
# Cancelling a timer

`del_timer` takes out the first node that has the score of the one it is given, so that it
cancels the timer it is asked to cancel exactly when that one is the first of its score.
Insertion puts a new timer before the others of its score: the condition says that no timer
with the same deadline was added later and is still pending.
-/
namespace CServer.Timers

open Linked

variable {H : Type} {zsl zsl' : Zskiplist H} {l l' : List (Entry H)} {e : Entry H}

/-- `del_timer` takes out and frees the given timer and leaves the others as they are. -/
def CancelsOnly (zsl : Zskiplist H) (l : List (Entry H)) (e : Entry H) : Prop :=
  ∃ zsl', delTimer zsl e.addr = .ok zsl' ∧
    Represents zsl' (l.filter (fun d => d.addr ≠ e.addr)) ∧
    ∀ a, zsl'.heap a = none ↔ a = e.addr ∨ zsl.heap a = none

/-- The runs of `add_timer`, `del_timer` and `expire_timer` with handlers that do nothing,
beside the timers that should be pending: those that were added, less those that were given
to `del_timer` and those that were due in a pass. The guard says which pending timers are
given to `del_timer`. -/
inductive TimerRun (Guard : List (Entry H) → Entry H → Prop) :
    Zskiplist H → Multiset (Entry H) → Prop
  | init (header : Addr) (defaultHandler : H) :
      TimerRun Guard (initTimer header defaultHandler) 0
  | add {zsl zsl' pending} (msec : UInt32) (func : H) (ti : Timespec) (level : RandomLevel)
      (x : Addr) (before : TimerRun Guard zsl pending) (fresh : zsl.heap x = none)
      (run : addTimer zsl msec func ti level x = .ok zsl') :
      TimerRun Guard zsl' (⟨x, deadline msec ti, func, level.val⟩ ::ₘ pending)
  | del {zsl zsl' pending} (e : Entry H) (before : TimerRun Guard zsl (e ::ₘ pending))
      (guard : ∀ l, Represents zsl l → Guard l e) (run : delTimer zsl e.addr = .ok zsl') :
      TimerRun Guard zsl' pending
  | expire {zsl zsl' pending events} (ti : Timespec) (turns : ℕ)
      (before : TimerRun Guard zsl pending)
      (run : expireTimer idle ti turns zsl = .ok (events, zsl')) :
      TimerRun Guard zsl' (pending.filter (fun e => (currentTime ti).toNat < e.score))

/-- A pass at any time calls the handlers of the pending timers that are due, each once and
in the order of their deadlines, and of no other; and the others stay. -/
structure FiresPending (zsl : Zskiplist H) (pending : Multiset (Entry H)) : Prop where
  holds : ∃ l, Represents zsl l ∧ (l : Multiset (Entry H)) = pending
  fires : ∀ ti, ∃ enough zsl', ∃ fired l' : List (Entry H),
    (∀ turns, enough ≤ turns →
      expireTimer idle ti turns zsl = .ok (fired.map Event.touched, zsl')) ∧
    (fired : Multiset (Entry H)) =
      pending.filter (fun e => e.score ≤ (currentTime ti).toNat) ∧
    fired.Pairwise Entry.Before ∧ Represents zsl' l' ∧
    (l' : Multiset (Entry H)) = pending.filter (fun e => (currentTime ti).toNat < e.score)

/-- A skip list holds one list of timers. -/
theorem Represents.unique (r : Represents zsl l) (r' : Represents zsl l') : l = l' := by
  have rebuild : ∀ k : List (Entry H), Represents zsl k → k = (k.map Entry.addr).filterMap
      (fun a => (zsl.heap.info a).map (fun m => ⟨a, m.score, m.handler, m.height⟩)) := by
    intro k rk
    rw [List.filterMap_map]
    have here : ∀ e ∈ k, ((fun a => (zsl.heap.info a).map
        (fun m => (⟨a, m.score, m.handler, m.height⟩ : Entry H))) ∘ Entry.addr) e = some e := by
      intro e he
      simp [rk.nodes e he, Entry.info]
    rw [List.filterMap_congr here, List.filterMap_some]
  rw [rebuild l r, rebuild l' r', r.chain_zero.unique r'.chain_zero]

theorem heap_eq_none_iff {heap : Heap H} {a : Addr} : heap a = none ↔ heap.info a = none := by
  simp [Heap.info]

/-- For every list that a run can reach and every timer in it: the timer alone is cancelled
exactly when it is the first of its score. -/
theorem Represents.cancelsOnly_iff (r : Represents zsl l) (he : e ∈ l) :
    CancelsOnly zsl l e ↔ FirstOfScore l e := by
  constructor
  · rintro ⟨zsl', run, -, freed⟩
    obtain ⟨d, p, q, zsl'', rfl, hscore, hp, run', -, hinfo, -⟩ := r.zslDelete he
    have hsame : zsl' = zsl'' := Except.ok.inj (run.symm.trans run')
    subst hsame
    have hnone := (freed e.addr).mpr (Or.inl rfl)
    have hde : d.addr = e.addr := by
      by_contra hne
      have hkept : zsl'.heap.info e.addr = some e.info := by
        rw [hinfo, Function.update_of_ne (Ne.symm hne), r.nodes e he]
      rw [heap_eq_none_iff, hkept] at hnone
      exact absurd hnone (by simp)
    have heq := r.eq_of_addr (by simp) he hde
    subst heq
    exact find?_of_split rfl hp
  · intro first
    obtain ⟨p, q, zsl', rfl, run, -, hinfo, r'⟩ := r.delTimer_first first
    refine ⟨zsl', run, ?_, ?_⟩
    · have hnd := (List.nodup_cons.mp r.distinct).2
      rw [List.map_append, List.map_cons, List.nodup_middle] at hnd
      have hout := (List.nodup_cons.mp hnd).1
      have hkeep : ∀ d ∈ p ++ q, d.addr ≠ e.addr := by
        intro d hd heq
        apply hout
        rw [← heq, ← List.map_append]
        exact List.mem_map_of_mem hd
      have hrest : (p ++ e :: q).filter (fun d => d.addr ≠ e.addr) = p ++ q := by
        rw [List.filter_append, List.filter_cons_of_neg (by simp), ← List.filter_append,
          List.filter_eq_self]
        intro d hd
        simpa using hkeep d hd
      rw [hrest]
      exact r'
    · intro a
      rw [heap_eq_none_iff, heap_eq_none_iff, hinfo]
      by_cases ha : a = e.addr
      · subst ha
        simp
      · simp [ha]

/-- A pass over a list fires what is due in it. -/
theorem Represents.firesPending (r : Represents zsl l) : FiresPending zsl l := by
  refine ⟨⟨l, r, rfl⟩, ?_⟩
  intro ti
  obtain ⟨zsl', r', loop⟩ := expireLoop_idle r (currentTime ti)
  obtain ⟨htake, hdrop⟩ := takeWhile_due r.sorted (currentTime ti).toNat
  rw [htake] at loop
  rw [hdrop] at r'
  refine ⟨(l.filter (fun e => e.score ≤ (currentTime ti).toNat)).length + 1, zsl', _, _, ?_,
    rfl, r.sorted.sublist List.filter_sublist, r', rfl⟩
  intro turns hturns
  rw [expireTimer, loop]
  exact if_pos (Nat.lt_of_succ_le hturns)

/-- Along a run that cancels only first nodes, the list holds what should be pending. -/
theorem TimerRun.represents {pending : Multiset (Entry H)}
    (run : TimerRun FirstOfScore zsl pending) :
    ∃ l, Represents zsl l ∧ (l : Multiset (Entry H)) = pending := by
  induction run with
  | init header defaultHandler => exact ⟨[], represents_zslCreate header defaultHandler, rfl⟩
  | add msec func ti level x before fresh run ih =>
    obtain ⟨l, r, rfl⟩ := ih
    obtain ⟨zsl', run', -, -, r'⟩ := r.zslInsert fresh (deadline msec ti) func level
    have hsame := Except.ok.inj (run'.symm.trans run)
    subst hsame
    exact ⟨_, r', Multiset.coe_eq_coe.mpr (List.perm_orderedInsert _ _ l)⟩
  | del e before guard run ih =>
    obtain ⟨l, r, hl⟩ := ih
    obtain ⟨p, q, zsl', rfl, run', -, -, r'⟩ := r.delTimer_first (guard l r)
    have hsame := Except.ok.inj (run'.symm.trans run)
    subst hsame
    refine ⟨p ++ q, r', ?_⟩
    have hperm : (p ++ e :: q).Perm (e :: (p ++ q)) := List.perm_middle
    rw [Multiset.coe_eq_coe.mpr hperm] at hl
    exact (Multiset.cons_inj_right e).mp hl
  | expire ti turns before run ih =>
    obtain ⟨l, r, rfl⟩ := ih
    obtain ⟨zsl', r', loop⟩ := expireLoop_idle r (currentTime ti)
    rw [(takeWhile_due r.sorted _).2] at r'
    rw [expireTimer, loop] at run
    split at run
    · have hsame := (Prod.mk.inj (Except.ok.inj run)).2
      subst hsame
      exact ⟨_, r', rfl⟩
    · exact absurd run (by simp)

/-- In every reachable list `del_timer` cancels the given timer and no other exactly when it
is the first of its score; and in every run where each cancelled timer is, a timer that was
cancelled before its deadline never fires and one that was not fires in the first pass at or
after its deadline. -/
theorem delTimer_cancels_iff (H : Type) :
    (∀ (zsl : Zskiplist H) m l e, Reached zsl m → Represents zsl l → e ∈ l →
      (CancelsOnly zsl l e ↔ FirstOfScore l e)) ∧
    ∀ (zsl : Zskiplist H) pending, TimerRun FirstOfScore zsl pending →
      FiresPending zsl pending := by
  constructor
  · intro zsl m l e _ r he
    exact r.cancelsOnly_iff he
  · intro zsl pending run
    obtain ⟨l, r, rfl⟩ := run.represents
    exact r.firesPending

/-- A timer that was added to an empty list. -/
theorem delTimer_cancels_iff_single :
    ∃ zsl : Zskiplist Unit, ∃ e, (CancelsOnly zsl [e] e ↔ FirstOfScore [e] e) ∧
      FiresPending zsl {e} := by
  have fresh : (zslCreate 0 ()).heap 1 = none := by decide
  obtain ⟨zsl, run, -, -, r⟩ := (represents_zslCreate 0 ()).zslInsert fresh
    (deadline 7 ⟨0, 0⟩) () ⟨1, by decide, by decide⟩
  have reached : Reached zsl (deadline 7 ⟨0, 0⟩ ::ₘ 0) :=
    .call (.insert _ () ⟨1, by decide, by decide⟩ 1) (.create 0 ()) fresh run
      (.insert _ () _ 1 0)
  have timers : TimerRun FirstOfScore zsl _ :=
    .add 7 () ⟨0, 0⟩ ⟨1, by decide, by decide⟩ 1 (.init 0 ()) fresh run
  exact ⟨zsl, _, (delTimer_cancels_iff Unit).1 zsl _ _ _ reached r (by simp),
    (delTimer_cancels_iff Unit).2 zsl _ timers⟩

/-- Of two timers with one deadline the one added first is given to `del_timer`: the other
goes, and the cancelled one is left to fire. -/
theorem olderTimer_not_cancelled :
    ¬ ∀ (zsl : Zskiplist Unit) pending, TimerRun (fun l e => e ∈ l) zsl pending →
      FiresPending zsl pending := by
  intro claim
  have fresh₁ : (zslCreate 0 ()).heap 1 = none := by decide
  obtain ⟨zsl₁, run₁, -, info₁, r₁⟩ := (represents_zslCreate 0 ()).zslInsert fresh₁
    (deadline 7 ⟨0, 0⟩) () ⟨1, by decide, by decide⟩
  have fresh₂ : zsl₁.heap 2 = none := by
    rw [heap_eq_none_iff, info₁]
    decide
  obtain ⟨zsl₂, run₂, -, -, r₂⟩ := r₁.zslInsert fresh₂
    (deadline 7 ⟨0, 0⟩) () ⟨1, by decide, by decide⟩
  set older : Entry Unit := ⟨1, deadline 7 ⟨0, 0⟩, (), 1⟩ with holder
  set newer : Entry Unit := ⟨2, deadline 7 ⟨0, 0⟩, (), 1⟩ with hnewer
  have r₂' : Represents zsl₂ [newer, older] := r₂
  have holds₂ : TimerRun (fun l e => e ∈ l) zsl₂ (older ::ₘ {newer}) := by
    show TimerRun _ zsl₂ (older ::ₘ newer ::ₘ 0)
    rw [Multiset.cons_swap]
    exact .add 7 () ⟨0, 0⟩ ⟨1, by decide, by decide⟩ 2
      (.add 7 () ⟨0, 0⟩ ⟨1, by decide, by decide⟩ 1 (.init 0 ()) fresh₁ run₁) fresh₂ run₂
  obtain ⟨d, p, q, zsl₃, hsplit, hscore, hp, run₃, -, -, r₃⟩ := r₂'.zslDelete (e := older) (by simp)
  have hfind : d = newer := by
    have hfirst := find?_of_split (q := q) hscore hp
    rw [← hsplit] at hfirst
    exact (Option.some.inj hfirst).symm
  have holds₃ : TimerRun (fun l e => e ∈ l) zsl₃ {newer} := by
    apply TimerRun.del older holds₂ _ run₃
    intro l r
    rw [r.unique r₂']
    simp
  obtain ⟨l, r, hl⟩ := (claim zsl₃ {newer} holds₃).holds
  have hmem : newer ∈ p ++ q := by
    rw [r₃.unique r, ← Multiset.mem_coe, hl]
    simp
  -- the list that is left does not hold the timer that was taken out
  have hnodup := (List.nodup_cons.mp r₂'.distinct).2
  rw [hsplit, hfind, List.map_append, List.map_cons, List.nodup_middle] at hnodup
  apply (List.nodup_cons.mp hnodup).1
  rw [← List.map_append]
  exact List.mem_map_of_mem hmem

end CServer.Timers
