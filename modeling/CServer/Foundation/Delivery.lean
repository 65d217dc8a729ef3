import Mathlib.Data.List.Infix
import Mathlib.Logic.Relation

/-!
# Numbered pieces over a line that loses, repeats and reorders

A sender numbers the pieces and holds each until it knows that it has arrived. A receiver keeps the
pieces in order and, beside them, those that came early. What a packet says stays true, so that it
does not matter when or how often it arrives.
-/
namespace CServer.Delivery

variable {α : Type*}

/-- `log` has all the pieces that were numbered. -/
structure Line (α : Type*) where
  log : List α
  held : List (ℕ × α)
  arrived : List α
  early : List (ℕ × α)

variable {l l' : Line α} {i : ℕ} {a : α}

/-- The receiver has the piece. -/
def Line.Has (l : Line α) (i : ℕ) : Prop := i < l.arrived.length ∨ ∃ a, (i, a) ∈ l.early

structure Line.Sound (l : Line α) : Prop where
  held : ∀ p ∈ l.held, l.log[p.1]? = some p.2
  early : ∀ p ∈ l.early, l.arrived.length ≤ p.1 ∧ l.log[p.1]? = some p.2
  sorted : l.early.Pairwise fun p q => p.1 < q.1
  arrived : l.arrived <+: l.log
  kept : ∀ i < l.log.length, (∃ a, (i, a) ∈ l.held) ∨ l.Has i

inductive Step : Line α → Line α → Prop where
  | number (l : Line α) (a : α) :
    Step l { l with log := l.log ++ [a], held := l.held ++ [(l.log.length, a)] }
  | release (l : Line α) (held : List (ℕ × α)) (hsub : held ⊆ l.held)
    (hgot : ∀ p ∈ l.held, p ∉ held → l.Has p.1) : Step l { l with held := held }
  | keep (l : Line α) (front back : List (ℕ × α)) (i : ℕ) (a : α) (hearly : l.early = front ++ back)
    (hfront : ∀ p ∈ front, p.1 < i) (hback : ∀ p ∈ back, i < p.1)
    (hi : l.arrived.length ≤ i) (ha : l.log[i]? = some a) :
    Step l { l with early := front ++ (i, a) :: back }
  | advance (l : Line α) (a : α) (early : List (ℕ × α))
    (hearly : l.early = (l.arrived.length, a) :: early) :
    Step l { l with arrived := l.arrived ++ [a], early := early }

/-- What a packet can say. -/
inductive Packet (α : Type*) where
  | piece (i : ℕ) (a : α)
  | got (i : ℕ)
  | upTo (i : ℕ)

def Packet.True (l : Line α) : Packet α → Prop
  | .piece i a => l.log[i]? = some a
  | .got i => l.Has i
  | .upTo i => i ≤ l.arrived.length

/-! ## One step -/

theorem Step.log_prefix (h : Step l l') : l.log <+: l'.log := by
  cases h with
  | number a => exact List.prefix_append _ _
  | _ => exact List.prefix_rfl

theorem getElem?_of_prefix {log log' : List α} (h : log <+: log') (ha : log[i]? = some a) :
    log'[i]? = some a := by
  obtain ⟨more, rfl⟩ := h
  obtain ⟨hlt, -⟩ := List.getElem?_eq_some_iff.mp ha
  rw [List.getElem?_append_left hlt]
  exact ha

theorem Step.length_le (h : Step l l') : l.arrived.length ≤ l'.arrived.length := by
  cases h with
  | advance a early hearly => simp
  | _ => exact Nat.le_refl _

/-- What the receiver has it keeps. -/
theorem Step.has (h : Step l l') (hi : l.Has i) : l'.Has i := by
  rcases hi with hlt | ⟨a, ha⟩
  · exact .inl (Nat.lt_of_lt_of_le hlt h.length_le)
  · cases h with
    | number | release => exact .inr ⟨a, ha⟩
    | keep front back j b hearly =>
      refine .inr ⟨a, ?_⟩
      rw [hearly, List.mem_append] at ha
      exact List.mem_append.mpr (ha.imp_right (List.mem_cons_of_mem _))
    | advance b early hearly =>
      rw [hearly, List.mem_cons] at ha
      rcases ha with heq | ha
      · refine .inl ?_
        rw [(Prod.mk.inj heq).1]
        simp
      · exact .inr ⟨a, ha⟩

theorem Packet.True.step {p : Packet α} (hp : p.True l) (h : Step l l') : p.True l' := by
  cases p with
  | piece i a => exact getElem?_of_prefix h.log_prefix hp
  | got i => exact h.has hp
  | upTo i => exact Nat.le_trans hp h.length_le

theorem Line.Sound.step (hl : l.Sound) (h : Step l l') : l'.Sound := by
  have hlog : ∀ {i : ℕ} {a : α}, l.log[i]? = some a → l'.log[i]? = some a :=
    getElem?_of_prefix h.log_prefix
  cases h with
  | number a =>
    exact {
      held := by
        intro p hp
        rcases List.mem_append.mp hp with hp | hp
        · exact hlog (hl.held p hp)
        · rw [List.mem_singleton.mp hp]
          simp
      early := fun p hp => ⟨(hl.early p hp).1, hlog (hl.early p hp).2⟩
      sorted := hl.sorted
      arrived := hl.arrived.trans (List.prefix_append _ _)
      kept := by
        intro i hi
        rw [List.length_append, List.length_singleton] at hi
        by_cases hlast : i = l.log.length
        · exact .inl ⟨a, by simp [hlast]⟩
        · obtain ⟨b, hb⟩ | hhas := hl.kept i (by omega)
          · exact .inl ⟨b, List.mem_append_left _ hb⟩
          · exact .inr hhas }
  | release held hsub hgot =>
    exact { hl with
      held := fun p hp => hl.held p (hsub hp)
      kept := by
        intro i hi
        obtain ⟨a, ha⟩ | hhas := hl.kept i hi
        · by_cases hheld : (i, a) ∈ held
          · exact .inl ⟨a, hheld⟩
          · exact .inr (hgot _ ha hheld)
        · exact .inr hhas }
  | keep front back j b hearly hfront hback hj hb =>
    have hstep := Step.keep l front back j b hearly hfront hback hj hb
    have hsorted := hl.sorted
    rw [hearly, List.pairwise_append] at hsorted
    exact { hl with
      early := by
        intro p hp
        rcases List.mem_append.mp hp with hp | hp
        · exact hl.early p (hearly ▸ List.mem_append_left _ hp)
        · rcases List.mem_cons.mp hp with rfl | hp
          · exact ⟨hj, hb⟩
          · exact hl.early p (hearly ▸ List.mem_append_right _ hp)
      sorted := by
        refine List.pairwise_append.mpr ⟨hsorted.1, List.pairwise_cons.mpr ⟨hback, hsorted.2.1⟩, ?_⟩
        intro p hp q hq
        rcases List.mem_cons.mp hq with rfl | hq
        · exact hfront p hp
        · exact hsorted.2.2 p hp q hq
      kept := fun i hi => (hl.kept i hi).imp_right hstep.has }
  | advance a early hearly =>
    have hstep := Step.advance l a early hearly
    have hsorted := hl.sorted
    rw [hearly, List.pairwise_cons] at hsorted
    have ha := (hl.early _ (hearly ▸ List.mem_cons_self)).2
    exact { hl with
      early := by
        intro p hp
        refine ⟨?_, (hl.early p (hearly ▸ List.mem_cons_of_mem _ hp)).2⟩
        rw [List.length_append]
        exact hsorted.1 p hp
      sorted := hsorted.2
      arrived := by
        obtain ⟨rest, hrest⟩ := hl.arrived
        cases rest with
        | nil =>
          rw [← hrest, List.append_nil, List.getElem?_eq_none (Nat.le_refl _)] at ha
          cases ha
        | cons b rest =>
          rw [← hrest, List.getElem?_append_right (Nat.le_refl _), Nat.sub_self] at ha
          obtain rfl : b = a := Option.some.inj ha
          refine ⟨rest, ?_⟩
          rw [← hrest]
          simp
      kept := fun i hi => (hl.kept i hi).imp_right hstep.has }

/-! ## Many steps -/

abbrev Steps : Line α → Line α → Prop := Relation.ReflTransGen Step

theorem Packet.True.steps {p : Packet α} (hp : p.True l) (h : Steps l l') : p.True l' := by
  induction h with
  | refl => exact hp
  | tail _ hstep ih => exact ih.step hstep

/-- When the sender holds nothing any more the receiver has everything, in order. -/
theorem Line.Sound.complete (hl : l.Sound) (hheld : l.held = []) :
    l.arrived ++ l.early.map Prod.snd = l.log := by
  obtain ⟨log, held, arrived, early⟩ := l
  obtain rfl : held = [] := hheld
  induction early generalizing arrived with
  | nil =>
    refine (List.append_nil _).trans (hl.arrived.eq_of_length_le ?_)
    by_contra hlt
    obtain ⟨a, ha⟩ | hlt' | ⟨a, ha⟩ := hl.kept arrived.length (by simpa using hlt)
    · cases ha
    · exact Nat.lt_irrefl _ hlt'
    · cases ha
  | cons p early ih =>
    -- the first of the early pieces is the next one
    have hp := hl.early p List.mem_cons_self
    have hlt : p.1 < log.length := (List.getElem?_eq_some_iff.mp hp.2).1
    have hfirst : p.1 = arrived.length := by
      obtain ⟨a, ha⟩ | hlt' | ⟨a, ha⟩ := hl.kept arrived.length (Nat.lt_of_le_of_lt hp.1 hlt)
      · cases ha
      · exact absurd hlt' (Nat.lt_irrefl _)
      · rcases List.mem_cons.mp ha with heq | ha
        · rw [← heq]
        · exact Nat.le_antisymm ((List.pairwise_cons.mp hl.sorted).1 _ ha).le hp.1
    have hadvance := hl.step (.advance ⟨log, [], arrived, p :: early⟩ p.2 early (by rw [← hfirst]))
    rw [← ih _ hadvance]
    simp

end CServer.Delivery
