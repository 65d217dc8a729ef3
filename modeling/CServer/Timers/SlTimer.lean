import CServer.Timers.SkipListRuns

/-!
# Timers on the skip list

sl-timer.c. A handler is what it does while it runs: a finite list of calls of `add_timer`
and `del_timer`, with what the clock, `zslRandomLevel` and `malloc` answer to each of them.
A script gives the calls of the first handler that runs in a pass, of the second, and so on.
The calls leave events behind, so that what was added, cancelled and fired can be counted.
-/
namespace CServer.Timers

variable {H : Type}

/-- `struct timespec` of the monotonic clock. -/
structure Timespec where
  tvSec : ℕ
  tvNsec : ℕ

/-- `current_time`, in milliseconds modulo 2^32. -/
def currentTime (ti : Timespec) : UInt32 :=
  UInt32.ofNat ti.tvSec * 1000 + UInt32.ofNat (ti.tvNsec / 1000000)

/-- `init_timer`. -/
def initTimer (header : Addr) (defaultHandler : H) : Zskiplist H :=
  zslCreate header defaultHandler

/-- The deadline `add_timer` computes. -/
def deadline (msec : UInt32) (ti : Timespec) : ℕ := (msec + currentTime ti).toNat

/-- `add_timer`. -/
def addTimer (zsl : Zskiplist H) (msec : UInt32) (func : H) (ti : Timespec)
    (level : RandomLevel) (x : Addr) : Except Fault (Zskiplist H) :=
  zslInsert zsl (deadline msec ti) func level x

/-- `del_timer`. -/
def delTimer (zsl : Zskiplist H) (zn : Addr) : Except Fault (Zskiplist H) := zslDelete zsl zn

/-- What happened to a timer: it was handed out by `add_timer`, given to `del_timer`, or its
handler was called. -/
inductive Event (H : Type) where
  | added (e : Entry H)
  | cancelled (e : Entry H)
  | touched (e : Entry H)
  deriving DecidableEq

/-- A call a handler makes. -/
inductive Action (H : Type) where
  | addTimer (msec : UInt32) (func : H) (ti : Timespec) (level : RandomLevel) (x : Addr)
  | delTimer (zn : Addr)

/-- The timer at an address. -/
def Heap.entry (heap : Heap H) (x : Addr) : Except Fault (Entry H) := do
  let n ← heap.node x
  .ok ⟨x, n.score, n.handler, n.level.length⟩

def Action.run (zsl : Zskiplist H) : Action H → Except Fault (Event H × Zskiplist H)
  | .addTimer msec func ti level x => do
    let zsl ← Timers.addTimer zsl msec func ti level x
    .ok (.added ⟨x, deadline msec ti, func, level.val⟩, zsl)
  | .delTimer zn => do
    let e ← zsl.heap.entry zn
    let zsl ← Timers.delTimer zsl zn
    .ok (.cancelled e, zsl)

def runActions (zsl : Zskiplist H) : List (Action H) → Except Fault (List (Event H) × Zskiplist H)
  | [] => .ok ([], zsl)
  | a :: actions => do
    let first ← a.run zsl
    let rest ← runActions first.2 actions
    .ok (first.1 :: rest.1, rest.2)

/-- The loop of `expire_timer`. The node is removed by its place, after its handler ran. -/
def expireLoop (script : ℕ → List (Action H)) (now : UInt32) :
    ℕ → ℕ → Zskiplist H → Except Fault (List (Event H) × Zskiplist H)
  | 0, _, _ => .error .endless
  | turns + 1, n, zsl => do
    match ← zslMin zsl with
    | none => .ok ([], zsl)
    | some x =>
      let e ← zsl.heap.entry x
      if e.score > now.toNat then .ok ([], zsl)
      else do
        let handled ← runActions zsl (script n)
        let zsl ← zslDeleteHead handled.2
        let rest ← expireLoop script now turns (n + 1) zsl
        .ok (.touched e :: (handled.1 ++ rest.1), rest.2)

/-- `expire_timer`, in at most `turns` turns of its loop. -/
def expireTimer (script : ℕ → List (Action H)) (ti : Timespec) (turns : ℕ) (zsl : Zskiplist H) :
    Except Fault (List (Event H) × Zskiplist H) :=
  expireLoop script (currentTime ti) turns 0 zsl

/-- Handlers that do nothing. -/
def idle : ℕ → List (Action H) := fun _ => []

variable {zsl : Zskiplist H} {l : List (Entry H)} {e : Entry H}

/-- The node `zslDelete` takes for the given one: the first with its score. -/
def FirstOfScore (l : List (Entry H)) (e : Entry H) : Prop :=
  l.find? (fun d => d.score = e.score) = some e

instance [DecidableEq H] : Decidable (FirstOfScore l e) :=
  inferInstanceAs (Decidable (_ = some e))

theorem Represents.entry_eq (r : Represents zsl l) (he : e ∈ l) :
    zsl.heap.entry e.addr = .ok e := by
  obtain ⟨n, -, hn, hinfo⟩ := Heap.node_of_info (r.nodes e he)
  have hscore : n.score = e.score := congrArg NodeInfo.score hinfo
  have hhandler : n.handler = e.handler := congrArg NodeInfo.handler hinfo
  have hheight : n.level.length = e.height := congrArg NodeInfo.height hinfo
  rw [Heap.entry, hn, ok_bind, hscore, hhandler, hheight]

theorem find?_of_split {p q : List (Entry H)} {d : Entry H} (hscore : d.score = e.score)
    (hp : ∀ c ∈ p, c.score < e.score) :
    (p ++ d :: q).find? (fun c => c.score = e.score) = some d := by
  rw [List.find?_append, List.find?_eq_none.mpr (fun c hc => by simpa using (hp c hc).ne)]
  simp [hscore]

theorem FirstOfScore.mem (h : FirstOfScore l e) : e ∈ l := List.mem_of_find?_eq_some h

/-- Cancelling the first node of a score takes out that node. -/
theorem Represents.delTimer_first (r : Represents zsl l) (h : FirstOfScore l e) :
    ∃ p q zsl', l = p ++ e :: q ∧ delTimer zsl e.addr = .ok zsl' ∧
      zsl'.header = zsl.header ∧ zsl'.heap.info = Function.update zsl.heap.info e.addr none ∧
      Represents zsl' (p ++ q) := by
  obtain ⟨d, p, q, zsl', rfl, hscore, hp, run, hheader, hinfo, r'⟩ := r.zslDelete h.mem
  have hde : d = e := Option.some.inj ((find?_of_split hscore hp).symm.trans h)
  subst hde
  exact ⟨p, q, zsl', rfl, run, hheader, hinfo, r'⟩

/-- A test that is right about the elements up to a bound and about the first one above it splits a
sorted list there. -/
theorem takeWhile_of_sorted {α : Type} {number : α → ℕ} {p : α → Bool} {l : List α} {bound : ℕ}
    (hsorted : l.Pairwise (fun a b => number a ≤ number b))
    (hright : ∀ as a bs, l = as ++ a :: bs → (∀ b ∈ as, number b ≤ bound) →
      p a = decide (number a ≤ bound)) :
    l.takeWhile p = l.filter (fun a => number a ≤ bound) ∧
      l.dropWhile p = l.filter (fun a => bound < number a) := by
  induction l with
  | nil => exact ⟨rfl, rfl⟩
  | cons a l ih =>
    obtain ⟨ha, hl⟩ := List.pairwise_cons.mp hsorted
    have hp := hright [] a l rfl (fun b hb => absurd hb List.not_mem_nil)
    by_cases hdue : number a ≤ bound
    · obtain ⟨htake, hdrop⟩ := ih hl (fun as b bs hsplit has => hright (a :: as) b bs
        (by rw [hsplit, List.cons_append]) (List.forall_mem_cons.mpr ⟨hdue, has⟩))
      have hno : ¬ bound < number a := not_lt.mpr hdue
      simp only [List.takeWhile_cons, List.dropWhile_cons, List.filter_cons, hp, hdue, hno,
        decide_true, decide_false, if_true, Bool.false_eq_true, if_false, htake, hdrop,
        and_self]
    · have hlt : bound < number a := not_le.mp hdue
      have hlate : ∀ b ∈ l, bound < number b := fun b hb => lt_of_lt_of_le hlt (ha b hb)
      have hnone : l.filter (fun b => number b ≤ bound) = [] := by
        rw [List.filter_eq_nil_iff]
        intro b hb
        simpa using hlate b hb
      have hall : l.filter (fun b => bound < number b) = l := by
        rw [List.filter_eq_self]
        intro b hb
        simpa using hlate b hb
      simp [hp, hdue, hlt, hnone, hall]

/-- The timers that are due come first, and in the order of their deadlines. -/
theorem takeWhile_due (h : l.Pairwise Entry.Before) (now : ℕ) :
    l.takeWhile (fun e => e.score ≤ now) = l.filter (fun e => e.score ≤ now) ∧
      l.dropWhile (fun e => e.score ≤ now) = l.filter (fun e => now < e.score) :=
  takeWhile_of_sorted h (fun _ _ _ _ _ => rfl)

/-- The loop with handlers that do nothing: the due timers are touched in order. -/
theorem expireLoop_idle (r : Represents zsl l) (now : UInt32) :
    ∃ zsl', Represents zsl' (l.dropWhile (fun e => e.score ≤ now.toNat)) ∧
      ∀ turns n, expireLoop idle now turns n zsl =
        if (l.takeWhile (fun e => e.score ≤ now.toNat)).length < turns then
          .ok ((l.takeWhile (fun e => e.score ≤ now.toNat)).map Event.touched, zsl')
        else .error .endless := by
  induction l generalizing zsl with
  | nil =>
    refine ⟨zsl, r, ?_⟩
    intro turns n
    cases turns with
    | zero => rfl
    | succ turns => simp [expireLoop, r.zslMin_eq, ok_bind]
  | cons e l ih =>
    have first : zslMin zsl = .ok (some e.addr) := r.zslMin_eq
    have entry := r.entry_eq (e := e) (by simp)
    by_cases hdue : e.score ≤ now.toNat
    · obtain ⟨zsl₁, delete, -, -, r₁⟩ := r.zslDeleteHead
      obtain ⟨zsl', r', loop⟩ := ih r₁
      refine ⟨zsl', by simpa [hdue] using r', ?_⟩
      intro turns n
      cases turns with
      | zero => rfl
      | succ turns =>
        have hno : ¬ e.score > now.toNat := not_lt.mpr hdue
        rw [expireLoop, first, ok_bind]
        show (zsl.heap.entry e.addr >>= _) = _
        rw [entry, ok_bind, if_neg hno]
        show (Except.ok ([], zsl) >>= _) = _
        rw [ok_bind, delete, ok_bind, loop]
        by_cases hturns : (l.takeWhile (fun e => e.score ≤ now.toNat)).length < turns
        · have hturns' : (l.takeWhile (fun e => e.score ≤ now.toNat)).length + 1 < turns + 1 := by
            omega
          simp [hdue, hturns, hturns', ok_bind]
        · simp [hdue, hturns]
          rfl
    · refine ⟨zsl, by simpa [hdue] using r, ?_⟩
      intro turns n
      cases turns with
      | zero => rfl
      | succ turns =>
        rw [expireLoop, first, ok_bind]
        show (zsl.heap.entry e.addr >>= _) = _
        rw [entry, ok_bind, if_pos (not_le.mp hdue)]
        simp [hdue]

end CServer.Timers
