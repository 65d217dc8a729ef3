import CServer.Foundation.Frame

/-!
# Two programs at once

`Interleaves` holds of every order in which the commands of two programs can
follow one another, with the commands issued, the two results and the last
state. Two commands commute when no state tells their orders apart, up to a
relation that the commands keep. When every command of one program commutes with
those that the other has issued before it, the interleaving ends as if the
programs had run one after the other.
-/
namespace CServer

/-- A command with the type of its reply. -/
abbrev Command (F : Type → Type) := Σ β : Type, F β

namespace Program

variable {F : Type → Type} {ε δ α β γ σ : Type}

/-- The result of a program that has no command left. -/
def ended : Program F ε α → Option (Except ε α)
  | done a => some (.ok a)
  | exit e => some (.error e)
  | call _ _ => none

theorem run_of_ended {m : Machine F σ} {p : Program F ε α} {x : Except ε α}
    (h : p.ended = some x) (s : σ) : run m p s = (x, s) := by
  cases p with
  | done a =>
    cases h
    rfl
  | exit e =>
    cases h
    rfl
  | call c k => cases h

/-- The commands of two programs in some order, each with the program that issued it:
`true` for the first. -/
inductive Interleaves (m : Machine F σ) : Program F ε α → Program F δ β → σ →
    List (Bool × Command F) → Except ε α → Except δ β → σ → Prop where
  | ended {p : Program F ε α} {q : Program F δ β} {s : σ} {x : Except ε α} {y : Except δ β} :
      p.ended = some x → q.ended = some y → Interleaves m p q s [] x y s
  | first {γ : Type} {c : F γ} {k : γ → Program F ε α} {q : Program F δ β} {s t : σ}
      {commands : List (Bool × Command F)} {x : Except ε α} {y : Except δ β} :
      Interleaves m (k (m.exec c s).1) q (m.exec c s).2 commands x y t →
      Interleaves m (call c k) q s ((true, ⟨γ, c⟩) :: commands) x y t
  | second {γ : Type} {p : Program F ε α} {c : F γ} {k : γ → Program F δ β} {s t : σ}
      {commands : List (Bool × Command F)} {x : Except ε α} {y : Except δ β} :
      Interleaves m p (k (m.exec c s).1) (m.exec c s).2 commands x y t →
      Interleaves m p (call c k) s ((false, ⟨γ, c⟩) :: commands) x y t

/-- The same commands with the two programs exchanged. -/
def exchange (commands : List (Bool × Command F)) : List (Bool × Command F) :=
  commands.map (fun e => (!e.1, e.2))

theorem Interleaves.symm {m : Machine F σ} {p : Program F ε α} {q : Program F δ β} {s t : σ}
    {commands : List (Bool × Command F)} {x : Except ε α} {y : Except δ β}
    (h : Interleaves m p q s commands x y t) :
    Interleaves m q p s (exchange commands) y x t := by
  induction h with
  | ended hp hq => exact .ended hq hp
  | first _ ih => exact .second ih
  | second _ ih => exact .first ih

/-- Each command is one that its program can issue. -/
theorem Interleaves.issues {m : Machine F σ} {K L : (β : Type) → F β → Prop} {p : Program F ε α}
    {q : Program F δ β} {s t : σ} {commands : List (Bool × Command F)} {x : Except ε α}
    {y : Except δ β} (h : Interleaves m p q s commands x y t) (hp : Issues K p)
    (hq : Issues L q) : ∀ e ∈ commands,
      (e.1 = true → K e.2.1 e.2.2) ∧ (e.1 = false → L e.2.1 e.2.2) := by
  induction h with
  | ended => simp
  | first _ ih =>
    rw [List.forall_mem_cons]
    exact ⟨⟨fun _ => hp.1, by simp⟩, ih (hp.2 _) hq⟩
  | second _ ih =>
    rw [List.forall_mem_cons]
    exact ⟨⟨by simp, fun _ => hq.1⟩, ih hp (hq.2 _)⟩

theorem Interleaves.of_ended {m : Machine F σ} {p : Program F ε α} {x : Except ε α}
    (hp : p.ended = some x) (q : Program F δ β) (s : σ) :
    ∃ commands, Interleaves m p q s commands x (run m q s).1 (run m q s).2 := by
  induction q generalizing s with
  | done b => exact ⟨[], .ended hp rfl⟩
  | exit e => exact ⟨[], .ended hp rfl⟩
  | call c k ih =>
    obtain ⟨commands, h⟩ := ih _ (m.exec c s).2
    exact ⟨_, .second h⟩

theorem Interleaves.of_runs (m : Machine F σ) (p : Program F ε α) (q : Program F δ β) (s : σ) :
    ∃ commands, Interleaves m p q s commands (run m p s).1 (run m q (run m p s).2).1
      (run m q (run m p s).2).2 := by
  induction p generalizing s with
  | done a => exact Interleaves.of_ended rfl q s
  | exit e => exact Interleaves.of_ended rfl q s
  | call c k ih =>
    obtain ⟨commands, h⟩ := ih _ (m.exec c s).2
    exact ⟨_, .first h⟩

/-- Every schedule gives an interleaving. -/
theorem interleave_interleaves (m : Machine F σ) (w : List Bool) (p : Program F ε α)
    (q : Program F δ β) (s : σ) :
    ∃ commands, Interleaves m p q s commands (interleave m w p q s).1
      (interleave m w p q s).2.1 (interleave m w p q s).2.2 := by
  induction w generalizing p q s with
  | nil => exact Interleaves.of_runs m p q s
  | cons turn w ih =>
    cases turn with
    | true =>
      cases p with
      | done a => exact ih (done a) q s
      | exit e => exact ih (exit e) q s
      | call c k =>
        obtain ⟨commands, h⟩ := ih (k (m.exec c s).1) q (m.exec c s).2
        exact ⟨_, .first h⟩
    | false =>
      cases q with
      | done b =>
        rw [interleave.eq_def]
        exact ih p (done b) s
      | exit e =>
        rw [interleave.eq_def]
        exact ih p (exit e) s
      | call c k =>
        obtain ⟨commands, h⟩ := ih p (k (m.exec c s).1) (m.exec c s).2
        rw [interleave.eq_def]
        exact ⟨_, .second h⟩

/-- The program issues the commands alone. -/
inductive Steps (m : Machine F σ) : Program F ε α → σ → List (Command F) → Program F ε α → σ →
    Prop where
  | refl (p : Program F ε α) (s : σ) : Steps m p s [] p s
  | head {γ : Type} {c : F γ} {k : γ → Program F ε α} {q : Program F ε α} {s t : σ}
      {commands : List (Command F)} :
      Steps m (k (m.exec c s).1) (m.exec c s).2 commands q t →
      Steps m (call c k) s (⟨γ, c⟩ :: commands) q t

section steps

variable {m : Machine F σ} {p q : Program F ε α} {s t : σ} {commands : List (Command F)}

theorem Steps.tail {c : F γ} {k : γ → Program F ε α} (h : Steps m p s commands (call c k) t) :
    Steps m p s (commands ++ [⟨γ, c⟩]) (k (m.exec c t).1) (m.exec c t).2 := by
  generalize hq : call c k = q at h
  induction h with
  | refl p s =>
    subst hq
    exact .head (.refl _ _)
  | head _ ih => exact .head (ih hq)

theorem Steps.run_eq (h : Steps m p s commands q t) : run m p s = run m q t := by
  induction h with
  | refl p s => rfl
  | head _ ih => exact ih

end steps

/-- An equivalence of states that the commands of a kind do not tell apart. -/
structure Congruence (m : Machine F σ) (K : (β : Type) → F β → Prop) (r : σ → σ → Prop) :
    Prop where
  equivalence : Equivalence r
  reply : ∀ {β : Type} {c : F β} {s t : σ}, K β c → r s t → (m.exec c s).1 = (m.exec c t).1
  state : ∀ {β : Type} {c : F β} {s t : σ}, K β c → r s t → r (m.exec c s).2 (m.exec c t).2

/-- In either order the two commands get the same replies and leave the same state. -/
def Commute (m : Machine F σ) (r : σ → σ → Prop) (c d : Command F) : Prop :=
  ∀ s, (m.exec c.2 (m.exec d.2 s).2).1 = (m.exec c.2 s).1 ∧
    (m.exec d.2 (m.exec c.2 s).2).1 = (m.exec d.2 s).1 ∧
    r (m.exec d.2 (m.exec c.2 s).2).2 (m.exec c.2 (m.exec d.2 s).2).2

theorem Commute.symm {r : σ → σ → Prop} (hr : Equivalence r) {c d : Command F}
    (h : Commute m r c d) : Commute m r d c :=
  fun s => ⟨(h s).2.1, (h s).1, hr.symm (h s).2.2⟩

/-- A command of the first program commutes with every command that the second has issued
before it. -/
def FirstFirst (C : Command F → Command F → Prop) (commands : List (Bool × Command F)) : Prop :=
  commands.Pairwise (fun a b => a.1 = false → b.1 = true → C b.2 a.2)

/-- The commands that do not commute come in one order of the programs. -/
def OneWay (C : Command F → Command F → Prop) (commands : List (Bool × Command F)) : Prop :=
  FirstFirst C commands ∨ FirstFirst C (exchange commands)

section serial

variable {m : Machine F σ} {K : (β : Type) → F β → Prop} {r : σ → σ → Prop}

/-- The state is read only as far as the relation goes. -/
theorem Steps.congr (hr : Congruence m K r) {p q : Program F ε α} {s t s' : σ}
    {commands : List (Command F)} (h : Steps m p s commands q t) (hp : Issues K p) (hs : r s s') :
    ∃ t', Steps m p s' commands q t' ∧ r t t' := by
  induction h generalizing s' with
  | refl p s => exact ⟨s', .refl p s', hs⟩
  | head _ ih =>
    obtain ⟨t', hsteps, ht⟩ := ih (hp.2 _) (hr.state hp.1 hs)
    rw [hr.reply hp.1 hs] at hsteps
    exact ⟨t', .head hsteps, ht⟩

/-- A command moves before the commands it commutes with. -/
theorem Steps.slide (hr : Congruence m K r) {p q : Program F ε α} {s t : σ}
    {commands : List (Command F)} (h : Steps m p s commands q t) (hp : Issues K p) {c : F γ}
    (hcomm : ∀ d ∈ commands, Commute m r ⟨γ, c⟩ d) :
    ∃ t', Steps m p (m.exec c s).2 commands q t' ∧ (m.exec c t).1 = (m.exec c s).1 ∧
      r t' (m.exec c t).2 := by
  induction h with
  | refl p s => exact ⟨_, .refl p _, rfl, hr.equivalence.refl _⟩
  | @head _ d k q s t commands _ ih =>
    obtain ⟨hreply, hreply', hstate⟩ := hcomm _ List.mem_cons_self s
    obtain ⟨t', hsteps, hsame, ht⟩ := ih (hp.2 _)
      (fun e he => hcomm e (List.mem_cons_of_mem _ he))
    obtain ⟨t'', hsteps'', ht''⟩ := hsteps.congr hr (hp.2 _) (hr.equivalence.symm hstate)
    refine ⟨t'', .head ?_, hsame.trans hreply, hr.equivalence.trans (hr.equivalence.symm ht'') ht⟩
    rw [hreply']
    exact hsteps''

/-- The second program has issued some commands alone from the state `s₀` where the first
one stands; the rest of an interleaving ends as the first program and the second one after
it, from `s₀`. -/
theorem Interleaves.serial_from (hr : Congruence m K r) {p : Program F ε α}
    {q q₀ : Program F δ β} {s t s₀ s₁ : σ} {commands : List (Bool × Command F)}
    {issued : List (Command F)} {x : Except ε α} {y : Except δ β}
    (h : Interleaves m p q s commands x y t) (hp : Issues K p) (hq₀ : Issues K q₀)
    (hq : Issues K q) (hsteps : Steps m q₀ s₀ issued q s₁) (hs : r s₁ s)
    (hissued : ∀ d ∈ issued, ∀ a ∈ commands, a.1 = true → Commute m r a.2 d)
    (hcommands : FirstFirst (Commute m r) commands) :
    ∃ u v, run m p s₀ = (x, u) ∧ run m q₀ u = (y, v) ∧ r v t := by
  induction h generalizing s₀ s₁ issued with
  | ended hpx hqy =>
    exact ⟨s₀, s₁, run_of_ended hpx s₀, hsteps.run_eq.trans (run_of_ended hqy s₁), hs⟩
  | @first _ c k q s t commands x y _ ih =>
    obtain ⟨s₁', hsteps', hreply, hs'⟩ := hsteps.slide hr hq₀
      (fun d hd => hissued d hd _ List.mem_cons_self rfl)
    have hsame : (m.exec c s).1 = (m.exec c s₀).1 := by
      rw [← hreply]
      exact (hr.reply hp.1 hs).symm
    obtain ⟨u, v, hpu, hqv, hv⟩ := ih (hp.2 _) hq hsteps'
      (hr.equivalence.trans hs' (hr.state hp.1 hs))
      (fun d hd a ha => hissued d hd a (List.mem_cons_of_mem _ ha)) hcommands.of_cons
    rw [hsame] at hpu
    exact ⟨u, v, hpu, hqv, hv⟩
  | @second _ p c k s t commands x y _ ih =>
    have hnext := hsteps.tail
    rw [hr.reply hq.1 hs] at hnext
    refine ih hp (hq.2 _) hnext (hr.state hq.1 hs) ?_ hcommands.of_cons
    intro d hd a ha hfirst
    rcases List.mem_append.mp hd with hd | hd
    · exact hissued d hd a (List.mem_cons_of_mem _ ha) hfirst
    · obtain rfl := List.mem_singleton.mp hd
      exact (List.pairwise_cons.mp hcommands).1 a ha rfl hfirst

/-- The results and the state of `p` and then `q`. -/
def SerialEnd (m : Machine F σ) (r : σ → σ → Prop) (p : Program F ε α) (q : Program F δ β) (s : σ)
    (x : Except ε α) (y : Except δ β) (t : σ) : Prop :=
  ∃ u v, run m p s = (x, u) ∧ run m q u = (y, v) ∧ r v t

theorem Interleaves.serial_first (hr : Congruence m K r) {p : Program F ε α} {q : Program F δ β}
    {s t : σ} {commands : List (Bool × Command F)} {x : Except ε α} {y : Except δ β}
    (h : Interleaves m p q s commands x y t) (hp : Issues K p) (hq : Issues K q)
    (hfirst : FirstFirst (Commute m r) commands) : SerialEnd m r p q s x y t :=
  h.serial_from hr hp hq hq (.refl q s) (hr.equivalence.refl s) (by simp) hfirst

/-- An interleaving whose commands conflict one way only ends as a serial order does. -/
theorem Interleaves.serial (hr : Congruence m K r) {p : Program F ε α} {q : Program F δ β}
    {s t : σ} {commands : List (Bool × Command F)} {x : Except ε α} {y : Except δ β}
    (h : Interleaves m p q s commands x y t) (hp : Issues K p) (hq : Issues K q)
    (hone : OneWay (Commute m r) commands) :
    SerialEnd m r p q s x y t ∨ SerialEnd m r q p s y x t := by
  rcases hone with hfirst | hsecond
  · exact .inl (h.serial_first hr hp hq hfirst)
  · exact .inr (h.symm.serial_first hr hq hp hsecond)

/-- Programs whose commands all commute never conflict. -/
theorem Interleaves.firstFirst {L L' : (β : Type) → F β → Prop} {p : Program F ε α}
    {q : Program F δ β} {s t : σ} {commands : List (Bool × Command F)} {x : Except ε α}
    {y : Except δ β} (h : Interleaves m p q s commands x y t) (hp : Issues L p)
    (hq : Issues L' q)
    (hcomm : ∀ {β γ : Type} (c : F β) (d : F γ), L β c → L' γ d → Commute m r ⟨β, c⟩ ⟨γ, d⟩) :
    FirstFirst (Commute m r) commands := by
  have hissues := h.issues hp hq
  refine List.pairwise_of_forall_mem_list ?_
  intro a ha b hb hsecond hfirst
  exact hcomm _ _ ((hissues b hb).1 hfirst) ((hissues a ha).2 hsecond)

end serial

end Program

end CServer
