import CServer.RbtTimer.Calls
import CServer.Timers.SlTimer

/-!
# Timers on the tree of rbtree.c

rbt-timer.c. Every handler is like `print_hello`: it calls neither `add_timer` nor `del_timer`. The
true time is the number of milliseconds that `clock_gettime` gives before `current_time` cuts it
down to 32 bits.
-/
namespace CServer.RbtTimer

open RedBlack RedBlack.ColorTree
open Timers (Timespec currentTime)

/-- The time in milliseconds. -/
def trueTime (ti : Timespec) : ℕ := ti.tvSec * 1000 + ti.tvNsec / 1000000

/-- `init_timer`. -/
def initTimer (nil : Addr) : Tree := ngxRbtreeInit nil

/-- What a caller does before `add_timer`: `malloc`, `memset` and the handler. -/
def newEntry (te : Addr) (handler : ℕ) (t : Tree) : Tree :=
  ⟨t.heap.alloc te ⟨null, null, null, .black, ⟨0, handler, 0⟩⟩, t.root⟩

/-- What `add_timer` leaves in the entry, and the deadline. -/
def keyed (msec : UInt32) (ti : Timespec) (handler : ℕ) : TimerEntry :=
  ⟨msec + currentTime ti, handler, msec.toNat + trueTime ti⟩

/-- `add_timer`. -/
def addTimer (turns : ℕ) (nil te : Addr) (msec : UInt32) (ti : Timespec) (t : Tree) :
    Except Fault Tree := do
  let heap ← t.heap.modify te (fun n => { n with value := keyed msec ti n.value.handler })
  ngxRbtreeInsert lessTimer turns nil te ⟨heap, t.root⟩

/-- The loop of `expire_timer`, with the entries whose handlers are called. -/
def expireLoop (nil : Addr) (now : UInt32) : ℕ → Tree → Except Fault (List (Cell TimerEntry) × Tree)
  | 0, _ => .error .endless
  | turns + 1, t =>
    if t.root = nil then .ok ([], t)
    else do
      let node ← ngxRbtreeMin nil t.heap turns t.root
      let n ← t.heap.node node
      if n.value.key > now then .ok ([], t)
      else do
        let t ← ngxRbtreeDelete turns nil node t
        let rest ← expireLoop nil now turns ⟨t.heap.free node, t.root⟩
        .ok (⟨node, n.value⟩ :: rest.1, rest.2)

/-- `expire_timer`. -/
def expireTimer (turns : ℕ) (nil : Addr) (ti : Timespec) (t : Tree) :
    Except Fault (List (Cell TimerEntry) × Tree) :=
  expireLoop nil (currentTime ti) turns t

variable {nil q te : Addr} {t : Tree} {T : ColorTree (Cell TimerEntry)}

/-! ## The calls -/

/-- `add_timer` puts the new timer where the comparisons on the way lead. -/
theorem addTimer_spec {isAfter : Cell TimerEntry → Bool} {msec : UInt32} {ti : Timespec}
    {handler : ℕ} (h : Shows nil q t T) (hvalid : Valid T) (hfresh : t.heap te = none)
    (hless : ∀ f ∈ descend isAfter [] T,
      lessTimer (keyed msec ti handler).key f.label.value.key = isAfter f.label) :
    ∃ t' T', Returns (fun turns => addTimer turns nil te msec ti (newEntry te handler t)) t' ∧
      (∃ q', Shows nil q' t' T') ∧ Valid T' ∧ T'.toList = before (descend isAfter [] T) ++
        ⟨te, keyed msec ti handler⟩ :: after (descend isAfter [] T) := by
  have hnil := h.ne_nil_of_fresh hfresh
  have hnot := h.notMem_of_fresh hfresh
  have hself : (newEntry te handler t).heap te =
      some ⟨null, null, null, .black, ⟨0, handler, 0⟩⟩ := Function.update_self _ _ _
  obtain ⟨heap, hok, hkeyed, hother⟩ := Heap.modify_spec hself
    (fun n => { n with value := keyed msec ti n.value.handler })
  have hsame : ∀ e, e ≠ te → heap e = t.heap e :=
    fun e he => (hother e he).trans (Function.update_of_ne he _ _)
  have hshows : Shows nil q ⟨heap, t.root⟩ T := h.elsewhere (hsame nil hnil.symm)
    (fun e he => hsame e (ne_of_mem_of_not_mem he hnot))
  obtain ⟨t', T', hreturns, hshows', hvalid', hlist⟩ :=
    ngxRbtreeInsert_spec hshows hvalid hkeyed hnot hnil hless
  refine ⟨t', T', hreturns.congr (fun turns => ?_), ⟨q, hshows'⟩, hvalid', hlist⟩
  rw [addTimer, hok, ok_bind]
  rfl

/-- Where a tree is not empty, its first timer is taken out. -/
theorem Shows.takeFirst {e : Cell TimerEntry} {l : List (Cell TimerEntry)} (h : Shows nil q t T)
    (hvalid : Valid T) (hlist : T.toList = e :: l) :
    ∃ t' T', Returns (fun turns => ngxRbtreeMin nil t.heap turns t.root) e.addr ∧
      (∃ n, t.heap e.addr = some n ∧ n.value = e.value) ∧
      Returns (fun turns => ngxRbtreeDelete turns nil e.addr t) t' ∧
      (∃ q', Shows nil q' ⟨t'.heap.free e.addr, t'.root⟩ T') ∧ Valid T' ∧ T'.toList = l := by
  have hT : T ≠ leaf := by
    rintro rfl
    exact absurd hlist (by simp [toList])
  have hmin := ngxRbtreeMin_spec (K := []) h hT
  obtain ⟨K, c, y, v, hlowest, hfill, hbefore⟩ := lowest_spec [] hT
  rw [hlowest] at hmin
  rw [hfill] at h hvalid hlist
  have hcons : y :: (v.toList ++ after K) = e :: l := by
    rw [← hlist, toList_fill, hbefore]
    rfl
  obtain ⟨rfl, rfl⟩ := List.cons.inj hcons
  obtain ⟨p, hy, -⟩ := Shows.node_eq (s := .left) h
  obtain ⟨t', q', T', hreturns, hshows', hvalid', hlist'⟩ := ngxRbtreeDelete_spec h hvalid
  have hrest : T'.toList = v.toList ++ after K := by
    rw [hlist', toList_fill, hbefore, List.nil_append]
  have hnodup : (y.addr :: (v.toList ++ after K).map Cell.addr).Nodup := by
    have hn : (addrs (fill K (node c leaf y v))).Nodup := h.rep.nodup
    rwa [addrs, hlist, List.map_cons] at hn
  have hynot : y.addr ∉ addrs T' := by
    rw [addrs, hrest]
    exact (List.nodup_cons.mp hnodup).1
  have hynil : y.addr ≠ nil :=
    h.rep.mem_ne_nil (mem_addrs_fill.mpr (.inr (mem_addrs_branch (s := .left).mpr (.inl rfl))))
  refine ⟨t', T', ?_, ⟨_, hy, rfl⟩, hreturns, ⟨q', ?_⟩, hvalid', hrest⟩
  · rw [h.root, ← hfill]
    exact hmin
  · exact hshows'.elsewhere (Function.update_of_ne hynil.symm _ _)
      (fun a ha => Function.update_of_ne (ne_of_mem_of_not_mem ha hynot) _ _)

/-- `expire_timer` calls the handlers of the first timers, up to the first one whose key is larger
than the time. -/
theorem expireLoop_spec {l : List (Cell TimerEntry)} (now : UInt32) (h : Shows nil q t T) (hvalid : Valid T)
    (hlist : T.toList = l) :
    ∃ t' T', Returns (fun turns => expireLoop nil now turns t)
        (l.takeWhile (fun e => e.value.key ≤ now), t') ∧
      (∃ q', Shows nil q' t' T') ∧ Valid T' ∧
      T'.toList = l.dropWhile (fun e => e.value.key ≤ now) := by
  induction l generalizing q t T with
  | nil =>
    have hroot : t.root = nil := by
      cases T with
      | leaf => exact h.root
      | node c l x r => exact absurd hlist (by simp [toList])
    refine ⟨t, T, Returns.of_succ (fun turns => ?_), ⟨q, h⟩, hvalid, hlist⟩
    rw [expireLoop, if_pos hroot]
    rfl
  | cons e l ih =>
    obtain ⟨t₁, T₁, hmin, ⟨n, hn, hvalue⟩, hdelete, ⟨q₁, h₁⟩, hvalid₁, hlist₁⟩ :=
      h.takeFirst hvalid hlist
    have hroot : t.root ≠ nil := by
      rw [h.root, ne_eq, Rep.ptr_eq_nil_iff (K := []) h.rep]
      rintro rfl
      exact absurd hlist (by simp [toList])
    have hcell : (⟨e.addr, n.value⟩ : Cell TimerEntry) = e := by rw [hvalue]
    by_cases hdue : e.value.key ≤ now
    · obtain ⟨t', T', hreturns, hshows', hvalid', hlist'⟩ := ih h₁ hvalid₁ hlist₁
      rw [List.takeWhile_cons_of_pos (by simpa using hdue),
        List.dropWhile_cons_of_pos (by simpa using hdue)]
      refine ⟨t', T', ?_, hshows', hvalid', hlist'⟩
      have hno : ¬ n.value.key > now := by
        rw [hvalue]
        exact UInt32.not_lt.mpr hdue
      have hrest : Returns (fun turns => do
          let t ← ngxRbtreeDelete turns nil e.addr t
          let rest ← expireLoop nil now turns ⟨t.heap.free e.addr, t.root⟩
          .ok (e :: rest.1, rest.2)) (e :: l.takeWhile (fun e => e.value.key ≤ now), t') :=
        hdelete.bind (hreturns.bind (Returns.of_eq (fun _ => rfl)))
      refine (hmin.after hrest (fun turns hok => ?_)).succ
        (fun turns => by rw [expireLoop, if_neg hroot])
      simp only [hok, ok_bind, Heap.node_eq hn, if_neg hno, hcell]
    · rw [List.takeWhile_cons_of_neg (by simpa using hdue),
        List.dropWhile_cons_of_neg (by simpa using hdue)]
      refine ⟨t, T, ?_, ⟨q, h⟩, hvalid, hlist⟩
      have hlate : n.value.key > now := by
        rw [hvalue]
        exact UInt32.not_le.mp hdue
      refine (hmin.after (Returns.of_eq (fun _ => rfl)) (fun turns hok => ?_)).succ
        (fun turns => by rw [expireLoop, if_neg hroot])
      simp only [hok, ok_bind, Heap.node_eq hn, if_pos hlate]

end CServer.RbtTimer
