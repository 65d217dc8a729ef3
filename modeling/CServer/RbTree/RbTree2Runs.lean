import CServer.RbTree.RbTree2Calls

/-!
# Runs of rb_tree2.cpp

A deletion that rotates at the root returns a node that is not the root any more, and what hangs
elsewhere below the new root is lost to the caller. After any other calls of `rb_insert` and
`rb_delete`, each with the root that the one before has returned, the memory holds a red-black
tree with the keys and data that the calls have left.
-/
namespace CServer.RbTree2

open RedBlack RedBlack.ColorTree Contents
open RbTree1 (InRange)

/-- The trees after some calls have returned, where each deletion was allowed; `malloc` gives an
address that is not in use. -/
inductive Reached (nil : Addr) (Allowed : ℤ → RbTree → Prop) : List Call → RbTree → Prop
  | start (uninitialised : Entry) : Reached nil Allowed [] (rbInit nil uninitialised)
  | insert {calls t t'} {key data : ℤ} {z : Addr} (before : Reached nil Allowed calls t)
      (fresh : t.heap z = none) (returns : Returns (fun turns => rbInsert turns nil key data z t) t') :
      Reached nil Allowed (calls ++ [.insert key data]) t'
  | erase {calls t t'} {key : ℤ} (before : Reached nil Allowed calls t) (allowed : Allowed key t)
      (returns : Returns (fun turns => rbDelete turns nil key t) t') :
      Reached nil Allowed (calls ++ [.erase key]) t'

/-- The deletion does not rotate at the root. -/
def Regular (nil : Addr) (key : ℤ) (t : RbTree) : Prop :=
  ∀ scratch T, Shows nil scratch t T → ¬RotatesAtRoot key T

variable {nil q : Addr} {t : RbTree} {T : ColorTree (Cell Entry)} {calls : List Call} {k d : ℤ}

/-! ## The invariant -/

/-- The tree in memory has the contents that the calls have left. -/
structure Invariant (nil : Addr) (calls : List Call) (t : RbTree) (T : ColorTree (Cell Entry)) :
    Prop where
  correct : Correct nil t T
  hasContents : HasContents calls (entries T)

theorem Correct.empty (nil : Addr) (uninitialised : Entry) :
    Correct nil (rbInit nil uninitialised) leaf where
  shown := by
    have hnil : (rbInit nil uninitialised).heap nil =
        some ⟨nil, nil, nil, .black, uninitialised⟩ := by
      simp only [rbInit, Function.update_self]
    exact ⟨nil, ⟨trivial, List.nodup_nil, List.not_mem_nil, List.not_mem_nil⟩, rfl, _, hnil, rfl,
      rfl⟩
  valid := ⟨rfl, 0, .leaf⟩
  increasing := increasing_nil
  inRange _ hv := absurd hv List.not_mem_nil

/-- The memory holds one tree at most. -/
theorem Shows.unique {q' : Addr} {T' : ColorTree (Cell Entry)} (h : Shows nil q t T)
    (h' : Shows nil q' t T') : T = T' :=
  h.rep.unique h'.rep (h.root.symm.trans h'.root)

theorem Reached.invariant (h : Reached nil (Regular nil) calls t)
    (hkeys : ∀ call ∈ calls, InRange call.key) : ∃ T, Invariant nil calls t T := by
  induction h with
  | start uninitialised => exact ⟨leaf, .empty nil uninitialised, .nil⟩
  | @insert calls t t' key data z _ fresh returns ih =>
    obtain ⟨T, hT⟩ := ih (fun call hcall => hkeys call (List.mem_append_left _ hcall))
    have hkey : InRange key := hkeys (.insert key data) (by simp)
    obtain ⟨t'', T', hreturns, hcorrect, hmem⟩ := rbInsert_spec hT.correct hkey fresh
    obtain rfl := returns.unique hreturns
    obtain ⟨⟨v, hv, hkey⟩, rfl⟩ | ⟨hnot, hmem⟩ := hmem
    · exact ⟨_, hcorrect, hT.hasContents.insert_old hv hkey⟩
    · exact ⟨T', hcorrect, hT.hasContents.insert_new hnot hmem⟩
  | @erase calls t t' key _ allowed returns ih =>
    obtain ⟨T, hT⟩ := ih (fun call hcall => hkeys call (List.mem_append_left _ hcall))
    have hkey : InRange key := hkeys (.erase key) (by simp)
    obtain ⟨q, hshown⟩ := hT.correct.shown
    obtain ⟨t'', T', hreturns, hcorrect, hmem⟩ :=
      rbDelete_spec hT.correct hkey (allowed q T hshown)
    obtain rfl := returns.unique hreturns
    exact ⟨T', hcorrect, hT.hasContents.erase hmem⟩

/-- What `rb_search` returns for a key. -/
def Finds (nil : Addr) (t : RbTree) (key : ℤ) (data : Option ℤ) : Prop :=
  ∃ node, Returns (fun turns => rbSearch turns nil key t) node ∧ (data = none → node = nil) ∧
    ∀ d, data = some d → node ≠ nil ∧ ∃ n, t.heap node = some n ∧ n.value = ⟨key, d⟩

theorem Invariant.finds (h : Invariant nil calls t T) (hk : InRange k) :
    Finds nil t k (contents calls k) := by
  obtain ⟨q, hshown⟩ := h.correct.shown
  have hfill : fill (locate keyOf k [] T).1 (locate keyOf k [] T).2 = T := fill_locate
  refine ⟨_, h.correct.search hk, ?_, ?_⟩
  · intro hnone
    have hnot := h.hasContents.eq_none_iff.mp hnone
    by_cases hfound : (locate keyOf k [] T).2 = leaf
    · rw [hfound]
      rfl
    · obtain ⟨c, l, x, r, hnode, hkey⟩ := key_of_locate hfound
      exact absurd hkey (hnot x.value (List.mem_map_of_mem (mem_of_found hnode)))
  · intro d hsome
    obtain ⟨c, l, x, r, hnode, hvalue⟩ :=
      found_of_mem h.correct.increasing ((h.hasContents k d).mp hsome)
    have hrep := hshown.rep
    have hne := hrep.mem_ne_nil (List.mem_map_of_mem (mem_of_found hnode))
    rw [hnode] at hfill
    rw [← hfill] at hrep
    have hread := (holds_fill.mp hrep.holds).2.1
    rw [hnode]
    exact ⟨hne, _, hread, hvalue⟩

/-- The parent of the root is the sentinel. -/
theorem Shows.root_parent (h : Shows nil q t T) (hroot : t.root ≠ nil) :
    ∃ n, t.heap t.root = some n ∧ n.parent = nil := by
  rw [h.root] at hroot ⊢
  apply Rep.parent_eq (K := []) h.rep
  rintro rfl
  exact hroot rfl

/-- In a run whose deletions do not rotate at the root, the root that the last call has returned
is the topmost node, a red-black tree with increasing keys hangs below it that the black sentinel
is no node of, a search from it finds every key exactly with the data of the first insert after its
last erase, and every further insertion and regular deletion returns, so that no step of it reads
or writes outside the nodes. -/
theorem sentinel_tree_correct (hkeys : ∀ call ∈ calls, InRange call.key)
    (h : Reached nil (Regular nil) calls t) :
    (∃ scratch T, Shows nil scratch t T ∧ Valid T ∧ Increasing keyOf T.toList) ∧
      (t.root ≠ nil → ∃ n, t.heap t.root = some n ∧ n.parent = nil) ∧
      (∀ k, InRange k → Finds nil t k (contents calls k)) ∧
      (∀ k d z, InRange k → t.heap z = none →
        ∃ t', Returns (fun turns => rbInsert turns nil k d z t) t') ∧
      ∀ k, InRange k → Regular nil k t → ∃ t', Returns (fun turns => rbDelete turns nil k t) t' := by
  obtain ⟨T, hT⟩ := h.invariant hkeys
  obtain ⟨q, hshown⟩ := hT.correct.shown
  refine ⟨⟨q, T, hshown, hT.correct.valid, hT.correct.increasing⟩, hshown.root_parent, ?_, ?_, ?_⟩
  · intro k hk
    exact hT.finds hk
  · intro k d z hk hfresh
    obtain ⟨t', -, hreturns, -⟩ := rbInsert_spec (d := d) hT.correct hk hfresh
    exact ⟨t', hreturns⟩
  · intro k hk hregular
    obtain ⟨t', -, hreturns, -⟩ := rbDelete_spec hT.correct hk (hregular q T hshown)
    exact ⟨t', hreturns⟩

/-! ## Runs on ascending keys -/

/-- The tree after the keys from 1 to `n` have been inserted, with the sentinel at 100. -/
def ascending : ℕ → RbTree
  | 0 => rbInit 100 ⟨0, 0⟩
  | n + 1 =>
    match rbInsert 20 100 (n + 1) 0 (n + 1) (ascending n) with
    | .ok t => t
    | .error _ => ascending n

/-- The tree after the smallest of `n` keys has been deleted. -/
def withoutSmallest (n : ℕ) : RbTree :=
  match rbDelete 20 100 1 (ascending n) with
  | .ok t => t
  | .error _ => ascending n

/-- One more key above `n` keys. -/
theorem Reached.next {Allowed : ℤ → RbTree → Prop} {n : ℕ}
    (h : Reached 100 Allowed calls (ascending n)) (hfresh : (ascending n).heap (n + 1) = none)
    (hok : ∀ turns, rbInsert (turns + 20) 100 (n + 1) 0 (n + 1) (ascending n) =
      .ok (ascending (n + 1))) :
    Reached 100 Allowed (calls ++ [.insert (n + 1) 0]) (ascending (n + 1)) :=
  .insert h hfresh (Returns.of_add hok)

/-- The smallest of `n` keys is deleted. -/
theorem Reached.smallest {Allowed : ℤ → RbTree → Prop} {n : ℕ}
    (h : Reached 100 Allowed calls (ascending n)) (allowed : Allowed 1 (ascending n))
    (hok : ∀ turns, rbDelete (turns + 20) 100 1 (ascending n) = .ok (withoutSmallest n)) :
    Reached 100 Allowed (calls ++ [.erase 1]) (withoutSmallest n) :=
  .erase h allowed (Returns.of_add hok)

/-- The only node of a tree is taken out without a rotation. -/
theorem regular_single : Regular 100 1 (ascending 1) := by
  have hshown : Shows 100 100 (ascending 1) (node .black leaf ⟨1, ⟨1, 0⟩⟩ leaf) :=
    ⟨⟨⟨rfl, trivial, trivial⟩, by decide, by decide, by decide⟩, rfl, _, rfl, rfl, rfl⟩
  rintro q T hT ⟨K, s, y, v, htaken, -, hroot⟩
  rw [hT.unique hshown] at htaken
  obtain ⟨rfl, -⟩ := Prod.mk.inj htaken
  exact hroot

theorem sentinel_tree_correct_single : ∃ t, Reached 100 (Regular 100) [.insert 1 0, .erase 1] t ∧
    Finds 100 t 1 none := by
  have hstart : Reached 100 (Regular 100) [] (ascending 0) := .start _
  have hinsert := hstart.next rfl (fun turns => rfl)
  have herase := hinsert.smallest regular_single (fun turns => rfl)
  have hcorrect := sentinel_tree_correct (by decide) herase
  exact ⟨_, herase, hcorrect.2.2.1 1 (by decide)⟩

/-- Deleting 1 after the keys from 1 to 4 rotates at the root: `rb_delete` returns the old root 2,
whose parent is the new one, and a search from it does not find 4. -/
theorem rotated_root_lost : ∃ calls t, Reached 100 (fun _ _ => True) calls t ∧
    (∀ call ∈ calls, InRange call.key) ∧ contents calls 4 = some 0 ∧
    Returns (fun turns => rbSearch turns 100 4 t) 100 ∧
    ∃ n, t.heap t.root = some n ∧ n.parent = 3 := by
  have h0 : Reached 100 (fun _ _ => True) [] (ascending 0) := .start _
  have h1 := h0.next rfl (fun turns => rfl)
  have h2 := h1.next rfl (fun turns => rfl)
  have h3 := h2.next rfl (fun turns => rfl)
  have h4 := h3.next rfl (fun turns => rfl)
  have h5 := h4.smallest trivial (fun turns => rfl)
  have hsearch : ∀ more, rbSearch (more + 20) 100 4 (withoutSmallest 4) = .ok 100 := fun more => rfl
  exact ⟨_, _, h5, by decide, rfl, Returns.of_add hsearch, _, rfl, rfl⟩

end CServer.RbTree2
