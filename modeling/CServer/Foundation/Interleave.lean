import Mathlib.Algebra.Ring.Nat
import Mathlib.Data.List.Sort
import Mathlib.Order.Lattice

/-!
# Lists between keys

The sequence of a node of a search tree with many keys: the sequences of its children with the keys
between them. A node without children has its keys only. Around one child the sequence has a part
before it, which ends with a key, and a part behind it, which begins with one.
-/
namespace CServer.Interleave

variable {α : Type*}

/-- The lists with the keys between them, or the keys only. -/
def interleave : List (List α) → List α → List α
  | [], ks => ks
  | c :: _, [] => c
  | c :: cs, k :: ks => c ++ k :: interleave cs ks

/-- Lists with a key behind each. -/
def weave : List (List α) → List α → List α
  | c :: cs, k :: ks => c ++ k :: weave cs ks
  | _, _ => []

/-- Lists with a key before each. -/
def follow (cs : List (List α)) : List α → List α
  | [] => []
  | k :: ks => k :: interleave cs ks

variable {cs cs' : List (List α)} {ks ks' : List α} {c : List α} {k : α}

theorem interleave_cons (c : List α) (cs : List (List α)) (ks : List α) :
    interleave (c :: cs) ks = c ++ follow cs ks := by
  cases ks with
  | nil => exact (List.append_nil c).symm
  | cons k ks => rfl

@[simp] theorem weave_nil (cs : List (List α)) : weave cs [] = [] := by
  cases cs <;> rfl

theorem interleave_cons_cons (c : List α) (cs : List (List α)) (k : α) (ks : List α) :
    interleave (c :: cs) (k :: ks) = c ++ k :: interleave cs ks := rfl

theorem weave_cons_cons (c : List α) (cs : List (List α)) (k : α) (ks : List α) :
    weave (c :: cs) (k :: ks) = c ++ k :: weave cs ks := rfl

/-- The lists and keys in two parts. -/
theorem interleave_append (h : cs.length = ks.length) :
    interleave (cs ++ cs') (ks ++ ks') = weave cs ks ++ interleave cs' ks' := by
  induction cs generalizing ks with
  | nil =>
    obtain rfl := List.length_eq_zero_iff.mp h.symm
    rfl
  | cons c cs ih =>
    cases ks with
    | nil => exact absurd h (by simp)
    | cons k ks =>
      have hrest := @ih ks (by simpa using h)
      simp only [List.cons_append, interleave_cons_cons, weave_cons_cons, hrest, List.append_assoc]

theorem weave_append (h : cs.length = ks.length) :
    weave (cs ++ cs') (ks ++ ks') = weave cs ks ++ weave cs' ks' := by
  induction cs generalizing ks with
  | nil =>
    obtain rfl := List.length_eq_zero_iff.mp h.symm
    rfl
  | cons c cs ih =>
    cases ks with
    | nil => exact absurd h (by simp)
    | cons k ks =>
      have hrest := @ih ks (by simpa using h)
      simp only [List.cons_append, weave_cons_cons, hrest, List.append_assoc]

/-- What is before a child, the child, and what is behind it. -/
theorem interleave_child (h : cs.length = ks.length) :
    interleave (cs ++ c :: cs') (ks ++ ks') = weave cs ks ++ c ++ follow cs' ks' := by
  rw [interleave_append h, interleave_cons, List.append_assoc]

/-- The sequences of two nodes and the key between them. -/
theorem interleave_join (h : cs = [] ∧ cs' = [] ∨ cs.length = ks.length + 1) :
    interleave (cs ++ cs') (ks ++ k :: ks') = interleave cs ks ++ k :: interleave cs' ks' := by
  obtain ⟨rfl, rfl⟩ | hlength := h
  · rfl
  · induction cs generalizing ks with
    | nil => exact absurd hlength (by simp)
    | cons c cs ih =>
      cases ks with
      | nil =>
        obtain rfl := List.length_eq_zero_iff.mp (show cs.length = 0 by simpa using hlength)
        rfl
      | cons q ks =>
        have hrest := @ih ks (by simpa using hlength)
        simp only [List.cons_append, interleave_cons_cons, hrest, List.append_assoc]

/-- The keys of a node are in its sequence. -/
theorem mem_interleave (h : cs = [] ∨ cs.length = ks.length + 1) (hk : k ∈ ks) :
    k ∈ interleave cs ks := by
  obtain rfl | hlength := h
  · exact hk
  · induction ks generalizing cs with
    | nil => exact absurd hk (by simp)
    | cons q ks ih =>
      cases cs with
      | nil => exact absurd hlength (by simp)
      | cons c cs =>
        rw [interleave_cons_cons, List.mem_append, List.mem_cons]
        obtain rfl | hk := List.mem_cons.mp hk
        · exact .inr (.inl rfl)
        · exact .inr (.inr (ih hk (by simpa using hlength)))

/-- The first key of a node moves out to its left, with the child before it, behind the key `k` that
goes to the end of the node on the left. -/
theorem interleave_moveLeft {q : α}
    (h : cs = [] ∧ cs' = [] ∨ cs.length = ks.length + 1 ∧ cs'.length = (q :: ks').length + 1) :
    ∃ moved, interleave (cs ++ cs'.take 1) (ks ++ [k]) = interleave cs ks ++ k :: moved ∧
      interleave cs' (q :: ks') = moved ++ q :: interleave (cs'.drop 1) ks' := by
  obtain ⟨rfl, rfl⟩ | ⟨hcs, hcs'⟩ := h
  · exact ⟨[], rfl, rfl⟩
  · cases cs' with
    | nil => exact absurd hcs' (by simp)
    | cons c rest =>
      refine ⟨c, ?_, rfl⟩
      rw [interleave_join (.inr hcs)]
      rfl

/-- The last key of a node moves out to its right, with the child behind it, before the key `k` that
goes to the start of the node on the right. -/
theorem interleave_moveRight {q : α}
    (h : cs = [] ∧ cs' = [] ∨ cs.length = (ks ++ [q]).length + 1 ∧ cs'.length = ks'.length + 1) :
    ∃ moved, interleave (cs.drop (ks ++ [q]).length ++ cs') (k :: ks') =
        moved ++ k :: interleave cs' ks' ∧
      interleave cs (ks ++ [q]) = interleave (cs.take (ks ++ [q]).length) ks ++ q :: moved := by
  obtain ⟨rfl, rfl⟩ | ⟨hcs, hcs'⟩ := h
  · refine ⟨[], ?_, ?_⟩
    · rw [List.drop_nil]
      rfl
    · rw [List.take_nil]
      rfl
  · obtain ⟨front, c, rfl⟩ : ∃ front c, cs = front ++ [c] := by
      obtain rfl | ⟨front, c, rfl⟩ := cs.eq_nil_or_concat'
      · exact absurd hcs (by simp)
      · exact ⟨front, c, rfl⟩
    have hfront : front.length = (ks ++ [q]).length := by simpa using hcs
    refine ⟨c, ?_, ?_⟩
    · rw [← hfront, List.drop_left]
      rfl
    · rw [← hfront, List.take_left, interleave_join (.inr (by simpa using hfront))]
      rfl

/-- The part before a child ends with the last key before it. -/
theorem weave_getLast? (h : cs.length = ks.length) : (weave cs ks).getLast? = ks.getLast? := by
  induction cs generalizing ks with
  | nil =>
    obtain rfl := List.length_eq_zero_iff.mp h.symm
    rfl
  | cons c cs ih =>
    cases ks with
    | nil => exact absurd h (by simp)
    | cons k ks =>
      have hrest := @ih ks (by simpa using h)
      rw [weave_cons_cons, List.getLast?_append, List.getLast?_cons, List.getLast?_cons, hrest]
      rfl

/-- The part behind a child begins with the first key behind it. -/
theorem follow_head? (cs : List (List α)) (ks : List α) : (follow cs ks).head? = ks.head? := by
  cases ks <;> rfl

/-! ## A key put into a sequence -/

variable [LinearOrder α]

/-- The key stands in the sequence where those before it are not larger and those behind it are
not smaller. -/
def Inserted (k : α) (l l' : List α) : Prop :=
  ∃ before behind, l = before ++ behind ∧ l' = before ++ k :: behind ∧ (∀ x ∈ before, x ≤ k) ∧
    ∀ x ∈ behind, k ≤ x

theorem Inserted.perm {l l' : List α} (h : Inserted k l l') : l'.Perm (k :: l) := by
  obtain ⟨before, behind, rfl, rfl, -, -⟩ := h
  exact List.perm_middle

theorem Inserted.sorted {l l' : List α} (h : Inserted k l l') (hl : l.Pairwise (· ≤ ·)) :
    l'.Pairwise (· ≤ ·) := by
  obtain ⟨before, behind, rfl, rfl, hbefore, hbehind⟩ := h
  obtain ⟨hfirst, hsecond, hcross⟩ := List.pairwise_append.mp hl
  refine List.pairwise_append.mpr ⟨hfirst, List.pairwise_cons.mpr ⟨hbehind, hsecond⟩, ?_⟩
  intro x hx y hy
  obtain rfl | hy := List.mem_cons.mp hy
  · exact hbefore x hx
  · exact hcross x hx y hy

/-- The elements of a sorted list are not larger than a bound of its last one. -/
theorem le_of_getLast? {l : List α} (hl : l.Pairwise (· ≤ ·)) (hlast : ∀ q ∈ l.getLast?, q ≤ k) :
    ∀ x ∈ l, x ≤ k := by
  intro x hx
  obtain rfl | ⟨before, q, rfl⟩ := l.eq_nil_or_concat'
  · exact absurd hx (by simp)
  · have hq : q ≤ k := hlast q (by simp)
    obtain hx | hx := List.mem_append.mp hx
    · exact le_trans ((List.pairwise_append.mp hl).2.2 x hx q (by simp)) hq
    · rw [List.mem_singleton.mp hx]
      exact hq

/-- The elements of a sorted list are not smaller than a bound of its first one. -/
theorem ge_of_head? {l : List α} (hl : l.Pairwise (· ≤ ·)) (hhead : ∀ q ∈ l.head?, k ≤ q) :
    ∀ x ∈ l, k ≤ x := by
  intro x hx
  cases l with
  | nil => exact absurd hx (by simp)
  | cons q l =>
    have hq : k ≤ q := hhead q (by simp)
    obtain rfl | hx := List.mem_cons.mp hx
    · exact hq
    · exact le_trans hq ((List.pairwise_cons.mp hl).1 x hx)

/-- The key goes into the sequence of the child between the keys that surround it. -/
theorem Inserted.child {c' : List α} (h : Inserted k c c') (hlength : cs.length = ks.length)
    (hbefore : ∀ x ∈ ks.getLast?, x ≤ k) (hbehind : ∀ x ∈ ks'.head?, k ≤ x)
    (hsorted : (interleave (cs ++ c :: cs') (ks ++ ks')).Pairwise (· ≤ ·)) :
    Inserted k (interleave (cs ++ c :: cs') (ks ++ ks'))
      (interleave (cs ++ c' :: cs') (ks ++ ks')) := by
  rw [interleave_child hlength] at hsorted ⊢
  rw [interleave_child hlength]
  obtain ⟨hparts, hlast, -⟩ := List.pairwise_append.mp hsorted
  obtain ⟨hfront, -, -⟩ := List.pairwise_append.mp hparts
  have hlow := le_of_getLast? (k := k) hfront (by rwa [weave_getLast? hlength])
  have hhigh := ge_of_head? (k := k) hlast (by rwa [follow_head?])
  obtain ⟨first, second, rfl, rfl, hfirst, hsecond⟩ := h
  refine ⟨weave cs ks ++ first, second ++ follow cs' ks', by simp, by simp, ?_, ?_⟩
  · intro x hx
    exact (List.mem_append.mp hx).elim (hlow x) (hfirst x)
  · intro x hx
    exact (List.mem_append.mp hx).elim (hsecond x) (hhigh x)

end CServer.Interleave
