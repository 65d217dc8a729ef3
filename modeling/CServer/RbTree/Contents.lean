import CServer.Foundation.PointerTree
import CServer.Foundation.SearchTree
import Mathlib.Data.Int.Order.Basic
import Mathlib.Data.List.DropRight
import Mathlib.Tactic.Tauto

/-!
# The contents of the red-black trees

The three trees carry a key and data in each node. The calls that have been made determine what
each key is found with: the data of the first insert after the last erase.
-/
namespace CServer.Contents

open RedBlack RedBlack.ColorTree

structure Entry where
  key : ℤ
  data : ℤ
  deriving DecidableEq

def keyOf (x : Cell Entry) : ℤ := x.value.key

/-- The entries from left to right. -/
def entries (t : ColorTree (Cell Entry)) : List Entry := t.toList.map Cell.value

inductive Call where
  | insert (key data : ℤ)
  | erase (key : ℤ)
  deriving DecidableEq

def Call.key : Call → ℤ
  | .insert key _ => key
  | .erase key => key

/-- The data that a call brings for a key. -/
def Call.dataFor (key : ℤ) : Call → Option ℤ
  | .insert key' data => if key' = key then some data else none
  | .erase _ => none

/-- The calls after the last erase of a key. -/
def sinceErase (calls : List Call) (key : ℤ) : List Call :=
  calls.rtakeWhile (fun call => call ≠ .erase key)

/-- What a key has to be found with: the data of the first insert after its last erase. -/
def contents (calls : List Call) (key : ℤ) : Option ℤ :=
  (sinceErase calls key).findSome? (Call.dataFor key)

variable {calls : List Call} {k k' d : ℤ} {es es' : List Entry}

/-! ## One more call -/

theorem sinceErase_concat {call : Call} (h : call ≠ .erase k) :
    sinceErase (calls ++ [call]) k = sinceErase calls k ++ [call] :=
  List.rtakeWhile_concat_pos (fun call => decide (call ≠ Call.erase k)) calls call (by simpa using h)

theorem sinceErase_concat_erase : sinceErase (calls ++ [.erase k]) k = [] :=
  List.rtakeWhile_concat_neg (fun call => decide (call ≠ Call.erase k)) calls _ (by simp)

theorem contents_nil : contents [] k = none := rfl

theorem contents_insert : contents (calls ++ [.insert k d]) k' =
    if k = k' then some ((contents calls k').getD d) else contents calls k' := by
  rw [contents, sinceErase_concat (by simp), List.findSome?_append, ← contents]
  by_cases hk : k = k'
  · cases h : contents calls k' <;> simp [Call.dataFor, hk]
  · simp [Call.dataFor, hk]

theorem contents_erase : contents (calls ++ [.erase k]) k' =
    if k = k' then none else contents calls k' := by
  by_cases hk : k = k'
  · subst hk
    rw [contents, sinceErase_concat_erase, if_pos rfl]
    rfl
  · rw [contents, sinceErase_concat (by simpa using hk), List.findSome?_append, ← contents,
      if_neg hk]
    simp [Call.dataFor]

/-! ## Entries that are the contents -/

/-- The entries are those that the calls have left. -/
def HasContents (calls : List Call) (es : List Entry) : Prop :=
  ∀ k d, contents calls k = some d ↔ ⟨k, d⟩ ∈ es

theorem HasContents.nil : HasContents [] [] := by
  intro k d
  rw [contents_nil]
  exact iff_of_false (by simp) List.not_mem_nil

/-- A key without contents has no entry. -/
theorem HasContents.eq_none_iff (h : HasContents calls es) :
    contents calls k = none ↔ ∀ v ∈ es, v.key ≠ k := by
  constructor
  · intro hnone v hv hkey
    have hsome := (h k v.data).mpr (by rw [← hkey]; exact hv)
    rw [hnone] at hsome
    exact absurd hsome (by simp)
  · intro hnot
    rw [Option.eq_none_iff_forall_ne_some]
    intro d hsome
    exact hnot _ ((h k d).mp hsome) rfl

/-- Inserting a key that is there changes nothing. -/
theorem HasContents.insert_old (h : HasContents calls es) {v : Entry} (hv : v ∈ es)
    (hkey : v.key = k) : HasContents (calls ++ [.insert k d]) es := by
  intro k' d'
  rw [contents_insert, ← h k' d']
  by_cases hk : k = k'
  · subst hk
    have hsome := (h k v.data).mpr (by rw [← hkey]; exact hv)
    rw [if_pos rfl, hsome, Option.getD_some]
  · rw [if_neg hk]

theorem HasContents.insert_new (h : HasContents calls es) (hnot : ∀ v ∈ es, v.key ≠ k)
    (hmem : ∀ v, v ∈ es' ↔ v = ⟨k, d⟩ ∨ v ∈ es) : HasContents (calls ++ [.insert k d]) es' := by
  intro k' d'
  rw [contents_insert, hmem]
  by_cases hk : k = k'
  · subst hk
    rw [if_pos rfl, h.eq_none_iff.mpr hnot, Option.getD_none]
    constructor
    · intro hd
      rw [Option.some.inj hd]
      exact .inl rfl
    · rintro (heq | hold)
      · rw [(Entry.mk.inj heq).2]
      · exact absurd rfl (hnot _ hold)
  · rw [if_neg hk, h]
    constructor
    · exact .inr
    · rintro (heq | hold)
      · exact absurd (Entry.mk.inj heq).1.symm hk
      · exact hold

theorem HasContents.erase (h : HasContents calls es)
    (hmem : ∀ v, v ∈ es' ↔ v ∈ es ∧ v.key ≠ k) : HasContents (calls ++ [.erase k]) es' := by
  intro k' d
  rw [contents_erase, hmem]
  by_cases hk : k = k'
  · subst hk
    rw [if_pos rfl]
    exact iff_of_false (by simp) (fun hboth => hboth.2 rfl)
  · rw [if_neg hk, h]
    exact ⟨fun hv => ⟨hv, Ne.symm hk⟩, fun hboth => hboth.1⟩

/-! ## Entries of a search tree -/

variable {T T' : ColorTree (Cell Entry)} {ctx : Ctx (Cell Entry)} {c : Color} {x : Cell Entry}
variable {l r : ColorTree (Cell Entry)} {as bs : List Entry} {v : Entry}

theorem increasing_entries : Increasing Entry.key (entries T) ↔ Increasing keyOf T.toList := by
  rw [entries, Increasing, Increasing, List.pairwise_map]
  rfl

theorem entries_fill : entries (fill ctx T) =
    (before ctx).map Cell.value ++ entries T ++ (after ctx).map Cell.value := by
  rw [entries, toList_fill, List.map_append, List.map_append, entries]

/-- The entries without that of the node in the hole, which has one child at most. -/
theorem entries_one_child (ctx : Ctx (Cell Entry)) (s : Side) (c : Color) (x : Cell Entry)
    (T : ColorTree (Cell Entry)) :
    ∃ as bs, entries (fill ctx (branch s c leaf x T)) = as ++ x.value :: bs ∧
      entries (fill ctx T) = as ++ bs := by
  obtain ⟨as, bs, hold, hnew⟩ := toList_one_child ctx s c x T
  refine ⟨as.map Cell.value, bs.map Cell.value, ?_, ?_⟩
  · rw [entries, hold, List.map_append, List.map_cons]
  · rw [entries, hnew, List.map_append]

/-- The entries without that of a node that gets the entry after it, whose node is passed by. -/
theorem entries_two_children {low : Ctx (Cell Entry)} (ctx : Ctx (Cell Entry)) (c e : Color)
    (l v : ColorTree (Cell Entry)) (x y : Cell Entry) (hbefore : before low = []) :
    ∃ as bs, entries (fill ctx (node c l x (fill low (node e leaf y v)))) = as ++ x.value :: bs ∧
      entries (fill ctx (node c l ⟨x.addr, y.value⟩ (fill low v))) = as ++ bs := by
  refine ⟨(before ctx).map Cell.value ++ entries l,
    y.value :: entries v ++ (after low).map Cell.value ++ (after ctx).map Cell.value, ?_, ?_⟩
  · simp [entries, toList_fill, toList, hbefore]
  · simp [entries, toList_fill, toList, hbefore]

/-- Where a search ends in an empty subtree no entry has the key. -/
theorem key_ne_of_not_found (hincreasing : Increasing keyOf T.toList)
    (hfound : (locate keyOf k [] T).2 = leaf) : ∀ v ∈ entries T, v.key ≠ k := by
  have hfill : fill (locate keyOf k [] T).1 (locate keyOf k [] T).2 = T := fill_locate
  have hbetween : Between keyOf k (locate keyOf k [] T).1 := between_nil.locate hincreasing
  intro v hv heq
  obtain ⟨x, hx, rfl⟩ := List.mem_map.mp hv
  rw [← hfill, hfound, toList_fill, toList, List.append_nil] at hx
  rcases List.mem_append.mp hx with hx | hx
  · exact absurd heq (ne_of_lt (hbetween.before x hx))
  · exact absurd heq (ne_of_gt (hbetween.after x hx))

theorem mem_of_found (hnode : (locate keyOf k [] T).2 = node c l x r) : x ∈ T.toList := by
  have hfill : fill (locate keyOf k [] T).1 (locate keyOf k [] T).2 = T := fill_locate
  rw [← hfill, hnode, toList_fill]
  simp [toList]

/-- A search for the key of an entry ends at a node with this entry. -/
theorem found_of_mem (hincreasing : Increasing keyOf T.toList) (hv : v ∈ entries T) :
    ∃ c l x r, (locate keyOf v.key [] T).2 = node c l x r ∧ x.value = v := by
  have hne : (locate keyOf v.key [] T).2 ≠ leaf :=
    fun hleaf => key_ne_of_not_found hincreasing hleaf v hv rfl
  obtain ⟨c, l, x, r, hnode, hkey⟩ := key_of_locate hne
  obtain ⟨y, hy, rfl⟩ := List.mem_map.mp hv
  obtain rfl := hincreasing.eq_of_key_eq (mem_of_found hnode) hy hkey
  exact ⟨c, l, x, r, hnode, rfl⟩

theorem mem_insert_entry {p q : List Entry} (h : entries T = p ++ q)
    (h' : entries T' = p ++ v :: q) (w : Entry) : w ∈ entries T' ↔ w = v ∨ w ∈ entries T := by
  rw [h, h']
  simp only [List.mem_append, List.mem_cons]
  tauto

/-- An entry is taken out of increasing ones. -/
theorem mem_erase_entry (hincreasing : Increasing keyOf T.toList)
    (h : entries T = as ++ v :: bs) (h' : entries T' = as ++ bs) (w : Entry) :
    w ∈ entries T' ↔ w ∈ entries T ∧ w.key ≠ v.key := by
  rw [← increasing_entries, h, increasing_append_cons] at hincreasing
  obtain ⟨-, has, hbs⟩ := hincreasing
  rw [h, h']
  constructor
  · intro hw
    rcases List.mem_append.mp hw with hw | hw
    · exact ⟨List.mem_append_left _ hw, ne_of_lt (has w hw)⟩
    · exact ⟨List.mem_append_right _ (List.mem_cons_of_mem _ hw), ne_of_gt (hbs w hw)⟩
  · intro ⟨hw, hne⟩
    rcases List.mem_append.mp hw with hw | hw
    · exact List.mem_append_left _ hw
    · rcases List.mem_cons.mp hw with rfl | hw
      · exact absurd rfl hne
      · exact List.mem_append_right _ hw

theorem increasing_erase (hincreasing : Increasing keyOf T.toList)
    (h : entries T = as ++ v :: bs) (h' : entries T' = as ++ bs) : Increasing keyOf T'.toList := by
  rw [← increasing_entries, h, increasing_append_cons] at hincreasing
  rw [← increasing_entries, h']
  exact hincreasing.1

/-- A new entry where its key belongs. -/
theorem increasing_insert {z : Addr} (hincreasing : Increasing keyOf (fill ctx leaf).toList)
    (hbetween : Between keyOf v.key ctx) (h' : T'.toList = before ctx ++ ⟨z, v⟩ :: after ctx) :
    Increasing keyOf T'.toList := by
  rw [toList_fill, toList, List.append_nil] at hincreasing
  rw [h']
  exact increasing_append_cons.mpr ⟨hincreasing, hbetween.before, hbetween.after⟩

end CServer.Contents
