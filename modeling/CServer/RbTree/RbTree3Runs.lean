import CServer.RbTree.RbTree3Calls

/-!
# Runs of rb_tree3.cpp

A deletion that takes a black node without children out beside a red sibling loses the balance.
After any other calls of `rb_insert` and `rb_delete` a red-black tree with the right entries
hangs below the header.
-/
namespace CServer.RbTree3

open RedBlack RedBlack.ColorTree Contents

/-- The header that `rb_init` makes; its key and data are not initialised. -/
def rbInit (T : Addr) (uninitialised : Entry) : Heap Entry :=
  Function.update (fun _ => none) T (some ⟨null, null, null, .red, uninitialised⟩)

/-- The memory after some calls have returned, where each deletion was allowed. `malloc` gives
an address that is not in use. -/
inductive Reached (T : Addr) (Allowed : ℤ → Heap Entry → Prop) : List Call → Heap Entry → Prop
  | start (notNull : T ≠ null) (uninitialised : Entry) : Reached T Allowed [] (rbInit T uninitialised)
  | insert {calls heap out} {key data : ℤ} {node : Addr} (before : Reached T Allowed calls heap)
      (fresh : heap node = none) (notNull : node ≠ null)
      (returns : Returns (fun turns => rbInsert turns T key data node heap) out) :
      Reached T Allowed (calls ++ [.insert key data]) out.2
  | erase {calls heap out} {key : ℤ} (before : Reached T Allowed calls heap)
      (allowed : Allowed key heap)
      (returns : Returns (fun turns => rbDelete turns T key heap) out) :
      Reached T Allowed (calls ++ [.erase key]) out.2

/-- The deletion does not need the rotation that `delete_case2` leaves out. -/
def Regular (T : Addr) (key : ℤ) (heap : Heap Entry) : Prop :=
  ∀ t, Shows T heap t → ¬SkipsRotation key t

variable {T : Addr} {heap : Heap Entry} {t : ColorTree (Cell Entry)} {calls : List Call}

theorem Correct.empty (T : Addr) (uninitialised : Entry) :
    Correct T (rbInit T uninitialised) leaf where
  shown := ⟨⟨trivial, List.nodup_nil, List.not_mem_nil, List.not_mem_nil⟩, _,
    Function.update_self _ _ _, rfl⟩
  valid := ⟨rfl, 0, .leaf⟩
  increasing := increasing_nil

theorem Reached.correct (h : Reached T (Regular T) calls heap) :
    ∃ t, Correct T heap t ∧ HasContents calls (entries t) := by
  induction h with
  | start _ uninitialised => exact ⟨leaf, .empty T uninitialised, .nil⟩
  | insert _ fresh notNull returns ih =>
    obtain ⟨t, ht, hcontents⟩ := ih
    obtain ⟨out, t', hreturns, hcorrect, hmem⟩ := rbInsert_spec ht fresh notNull
    obtain rfl := returns.unique hreturns
    obtain ⟨⟨v, hv, hkey⟩, rfl⟩ | ⟨hnot, hmem⟩ := hmem
    · exact ⟨_, hcorrect, hcontents.insert_old hv hkey⟩
    · exact ⟨t', hcorrect, hcontents.insert_new hnot hmem⟩
  | erase _ allowed returns ih =>
    obtain ⟨t, ht, hcontents⟩ := ih
    obtain ⟨out, t', hreturns, hcorrect, hmem⟩ := rbDelete_spec ht (allowed t ht.shown)
    obtain rfl := returns.unique hreturns
    exact ⟨t', hcorrect, hcontents.erase hmem⟩

/-- In a run whose deletions are all regular a red-black tree with increasing keys and exactly
the entries that the calls have left hangs below the header, and every further insertion and
regular deletion returns, so that no step of it reads or writes through a null pointer. -/
theorem regular_reached_correct (h : Reached T (Regular T) calls heap) :
    (∃ t, Shows T heap t ∧ Valid t ∧ Increasing keyOf t.toList ∧ HasContents calls (entries t)) ∧
      (∀ k d z, heap z = none → z ≠ null →
        ∃ out, Returns (fun turns => rbInsert turns T k d z heap) out) ∧
      ∀ k, Regular T k heap → ∃ out, Returns (fun turns => rbDelete turns T k heap) out := by
  obtain ⟨t, ht, hcontents⟩ := h.correct
  refine ⟨⟨t, ht.shown, ht.valid, ht.increasing, hcontents⟩, ?_, ?_⟩
  · intro k d z hfresh hz
    obtain ⟨out, -, hreturns, -⟩ := rbInsert_spec (k := k) (d := d) ht hfresh hz
    exact ⟨out, hreturns⟩
  · intro k hregular
    obtain ⟨out, -, hreturns, -⟩ := rbDelete_spec ht (hregular t ht.shown)
    exact ⟨out, hreturns⟩

theorem regular_reached_single :
    ∃ heap, Reached 100 (Regular 100) [.insert 5 50] heap ∧ ∃ t, Shows 100 heap t ∧ Valid t := by
  have hstart : Reached 100 (Regular 100) [] (rbInit 100 ⟨0, 0⟩) := .start (by decide) _
  obtain ⟨out, -, hreturns, -⟩ := rbInsert_spec (k := 5) (d := 50) (z := 1)
    (Correct.empty 100 ⟨0, 0⟩) rfl (by decide)
  have hreached : Reached 100 (Regular 100) ([] ++ [.insert 5 50]) out.2 :=
    .insert hstart rfl (by decide) hreturns
  obtain ⟨⟨t, hshown, hvalid, -⟩, -⟩ := regular_reached_correct hreached
  exact ⟨out.2, hreached, t, hshown, hvalid⟩

/-! ## A run that loses the balance -/

/-- The memory after the keys from 1 to `n` have been inserted below the header 100. -/
def ascending : ℕ → Heap Entry
  | 0 => rbInit 100 ⟨0, 0⟩
  | n + 1 =>
    match rbInsert 20 100 (n + 1) 0 (n + 1) (ascending n) with
    | .ok out => out.2
    | .error _ => ascending n

/-- The memory after the smallest of six keys has been deleted. -/
def unbalanced : Heap Entry :=
  match rbDelete 20 100 1 (ascending 6) with
  | .ok out => out.2
  | .error _ => ascending 6

/-- One more key above `n` keys. -/
theorem Reached.next {n : ℕ} {calls : List Call}
    (h : Reached 100 (fun _ _ => True) calls (ascending n)) (hfresh : ascending n (n + 1) = none)
    (hok : ∀ turns, rbInsert (turns + 20) 100 (n + 1) 0 (n + 1) (ascending n) =
      .ok (n + 1, ascending (n + 1))) :
    Reached 100 (fun _ _ => True) (calls ++ [.insert (n + 1) 0]) (ascending (n + 1)) := by
  have hreturns : Returns (fun turns => rbInsert turns 100 (n + 1) 0 (n + 1) (ascending n))
      (n + 1, ascending (n + 1)) := Returns.of_add hok
  exact .insert h hfresh (Nat.succ_ne_zero n) hreturns

theorem unbalanced_reached : ∃ calls, Reached 100 (fun _ _ => True) calls unbalanced := by
  have h0 : Reached 100 (fun _ _ => True) [] (ascending 0) := .start (by decide) _
  have h1 := h0.next rfl (fun turns => rfl)
  have h2 := h1.next rfl (fun turns => rfl)
  have h3 := h2.next rfl (fun turns => rfl)
  have h4 := h3.next rfl (fun turns => rfl)
  have h5 := h4.next rfl (fun turns => rfl)
  have h6 := h5.next rfl (fun turns => rfl)
  have hdelete : ∀ more, rbDelete (more + 20) 100 1 (ascending 6) = .ok (100, unbalanced) :=
    fun more => rfl
  exact ⟨_, .erase h6 trivial (Returns.of_add hdelete)⟩

/-- The tree that is left: 2 has lost its left child, and the paths through it are longer by one
black node than those through 5. -/
def remaining : ColorTree (Cell Entry) :=
  node .black (node .black leaf ⟨2, ⟨2, 0⟩⟩ (node .black leaf ⟨3, ⟨3, 0⟩⟩ leaf)) ⟨4, ⟨4, 0⟩⟩
    (node .black leaf ⟨5, ⟨5, 0⟩⟩ (node .red leaf ⟨6, ⟨6, 0⟩⟩ leaf))

theorem remaining_shown : Shows 100 unbalanced remaining := by
  have hleft : Holds unbalanced null 4
      (node .black leaf ⟨2, ⟨2, 0⟩⟩ (node .black leaf ⟨3, ⟨3, 0⟩⟩ leaf)) :=
    ⟨rfl, trivial, rfl, trivial, trivial⟩
  have hright : Holds unbalanced null 4
      (node .black leaf ⟨5, ⟨5, 0⟩⟩ (node .red leaf ⟨6, ⟨6, 0⟩⟩ leaf)) :=
    ⟨rfl, trivial, rfl, trivial, trivial⟩
  exact ⟨⟨⟨rfl, hleft, hright⟩, by decide, by decide, by decide⟩, _, rfl, rfl⟩

theorem remaining_not_valid : ¬Valid remaining := by
  rintro ⟨-, n, hbalanced⟩
  cases hbalanced with
  | black hleft hright =>
    cases hleft with
    | black hnil hthree =>
      cases hnil
      cases hthree

/-- Inserting the keys from 1 to 6 and deleting 1 leaves a tree that is no red-black tree. -/
theorem reached_unbalanced : ∃ calls heap, Reached 100 (fun _ _ => True) calls heap ∧
    ¬∃ t, Shows 100 heap t ∧ Valid t := by
  obtain ⟨calls, hreached⟩ := unbalanced_reached
  refine ⟨calls, unbalanced, hreached, ?_⟩
  rintro ⟨t, hshown, hvalid⟩
  obtain ⟨header, hheader, hroot⟩ := hshown.header
  obtain ⟨header', hheader', hroot'⟩ := remaining_shown.header
  obtain rfl := Option.some.inj (hheader.symm.trans hheader')
  have hsame : t = remaining := hshown.rep.unique remaining_shown.rep (hroot.symm.trans hroot')
  rw [hsame] at hvalid
  exact remaining_not_valid hvalid

end CServer.RbTree3
