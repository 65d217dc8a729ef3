import CServer.RbTree.RbTree1Erase

/-!
# Runs of rb_tree.cpp

After any calls of `rb_insert` and `rb_erase`, starting without a tree, the memory holds a
red-black tree with the keys and data that the calls have left.
-/
namespace CServer.RbTree1

open RedBlack RedBlack.ColorTree Contents

/-- The trees after some calls have returned; `malloc` gives an address that is not in use. -/
inductive Reached : List Call → RbTree → Prop
  | start : Reached [] ⟨fun _ => none, null⟩
  | insert {calls t t'} {key data : ℤ} {node : Addr} (before : Reached calls t)
      (fresh : t.heap node = none) (notNull : node ≠ null)
      (returns : Returns (fun turns => rbInsert turns key data node t) t') :
      Reached (calls ++ [.insert key data]) t'
  | erase {calls t t'} {key : ℤ} (before : Reached calls t)
      (returns : Returns (fun turns => rbErase turns key t) t') : Reached (calls ++ [.erase key]) t'

variable {t : RbTree} {T : ColorTree (Cell Entry)} {calls : List Call} {k d : ℤ}

/-! ## The invariant -/

/-- The tree in memory has the contents that the calls have left. -/
structure Invariant (calls : List Call) (t : RbTree) (T : ColorTree (Cell Entry)) : Prop where
  correct : Correct t T
  hasContents : HasContents calls (entries T)

theorem Correct.empty : Correct ⟨fun _ => none, null⟩ leaf where
  shown := ⟨⟨trivial, List.nodup_nil, List.not_mem_nil, List.not_mem_nil⟩, rfl⟩
  valid := ⟨rfl, 0, .leaf⟩
  increasing := increasing_nil
  inRange _ hx := absurd hx List.not_mem_nil

theorem Reached.invariant (h : Reached calls t) (hkeys : ∀ call ∈ calls, InRange call.key) :
    ∃ T, Invariant calls t T := by
  induction h with
  | start => exact ⟨leaf, .empty, .nil⟩
  | @insert calls t t' key data node _ fresh notNull returns ih =>
    obtain ⟨T, hT⟩ := ih (fun call hcall => hkeys call (List.mem_append_left _ hcall))
    have hkey : InRange key := hkeys (.insert key data) (by simp)
    obtain ⟨t'', T', hreturns, hcorrect, hmem⟩ := rbInsert_spec hT.correct hkey fresh notNull
    obtain rfl := returns.unique hreturns
    obtain ⟨⟨v, hv, hkey⟩, rfl⟩ | ⟨hnot, hmem⟩ := hmem
    · exact ⟨_, hcorrect, hT.hasContents.insert_old hv hkey⟩
    · exact ⟨T', hcorrect, hT.hasContents.insert_new hnot hmem⟩
  | @erase calls t t' key _ returns ih =>
    obtain ⟨T, hT⟩ := ih (fun call hcall => hkeys call (List.mem_append_left _ hcall))
    have hkey : InRange key := hkeys (.erase key) (by simp)
    obtain ⟨t'', T', hreturns, hcorrect, hmem⟩ := rbErase_spec hT.correct hkey
    obtain rfl := returns.unique hreturns
    exact ⟨T', hcorrect, hT.hasContents.erase hmem⟩

/-- What `rb_search` returns for a key. -/
def Finds (t : RbTree) (key : ℤ) (data : Option ℤ) : Prop :=
  ∃ node, Returns (fun turns => rbSearch turns key t) node ∧ (data = none → node = null) ∧
    ∀ d, data = some d → node ≠ null ∧ ∃ n, t.heap node = some n ∧ n.value = ⟨key, d⟩

theorem Invariant.finds (h : Invariant calls t T) (hk : InRange k) :
    Finds t k (contents calls k) := by
  have hsearch := h.correct.search hk
  have hfill : fill (locate keyOf k [] T).1 (locate keyOf k [] T).2 = T := fill_locate
  have hreturns : Returns (fun turns => rbSearch turns k t) (answer (locate keyOf k [] T)).1 := by
    refine hsearch.after (Returns.of_eq (f := fun _ => .ok _) (fun _ => rfl)) ?_
    intro turns hok
    rw [rbSearch, hok, ok_bind]
  refine ⟨_, hreturns, ?_, ?_⟩
  · intro hnone
    have hnot := h.hasContents.eq_none_iff.mp hnone
    by_cases hfound : (locate keyOf k [] T).2 = leaf
    · rw [answer, hfound]
    · obtain ⟨c, l, x, r, hnode, hkey⟩ := key_of_locate hfound
      exact absurd hkey (hnot x.value (List.mem_map_of_mem (mem_of_found hnode)))
  · intro d hsome
    obtain ⟨c, l, x, r, hnode, hvalue⟩ :=
      found_of_mem h.correct.increasing ((h.hasContents k d).mp hsome)
    have hrep := h.correct.shown.rep
    have hne := hrep.mem_ne_nil (List.mem_map_of_mem (mem_of_found hnode))
    rw [hnode] at hfill
    rw [← hfill] at hrep
    have hread := (holds_fill.mp hrep.holds).2.1
    rw [answer, hnode]
    exact ⟨hne, _, hread, hvalue⟩

/-- After any calls the tree is a red-black tree with increasing keys, every key is found exactly
with the data of the first insert after its last erase, and every further call returns, so that
no step of it reads or writes through a null pointer. -/
theorem reached_correct (hkeys : ∀ call ∈ calls, InRange call.key) (h : Reached calls t) :
    (∃ T, Shows t T ∧ Valid T ∧ Increasing keyOf T.toList) ∧
      (∀ k, InRange k → Finds t k (contents calls k)) ∧
      (∀ k d node, InRange k → t.heap node = none → node ≠ null →
        ∃ t', Returns (fun turns => rbInsert turns k d node t) t') ∧
      ∀ k, InRange k → ∃ t', Returns (fun turns => rbErase turns k t) t' := by
  obtain ⟨T, hT⟩ := h.invariant hkeys
  refine ⟨⟨T, hT.correct.shown, hT.correct.valid, hT.correct.increasing⟩, ?_, ?_, ?_⟩
  · exact fun k hk => hT.finds hk
  · intro k d node hk hfresh hnode
    obtain ⟨t', -, hreturns, -⟩ := rbInsert_spec (d := d) hT.correct hk hfresh hnode
    exact ⟨t', hreturns⟩
  · intro k hk
    obtain ⟨t', -, hreturns, -⟩ := rbErase_spec hT.correct hk
    exact ⟨t', hreturns⟩

theorem reached_correct_single :
    ∃ t, Reached [.insert 5 50] t ∧ Finds t 5 (some 50) ∧ Finds t 6 none := by
  obtain ⟨t, -, hreturns, -⟩ := rbInsert_spec (k := 5) (d := 50) (z := 1) Correct.empty
    (by decide) rfl (by decide)
  have hreached : Reached ([] ++ [.insert 5 50]) t := .insert .start rfl (by decide) hreturns
  have hcorrect := reached_correct (by decide) hreached
  exact ⟨t, hreached, hcorrect.2.1 5 (by decide), hcorrect.2.1 6 (by decide)⟩

end CServer.RbTree1
