import CServer.Timers.Levels

/-!
# Insertion and deletion keep the levels

Each of the three operations on a skip list that represents a list of nodes ends without a
fault in a skip list that represents the list with one node more or less.
-/
namespace CServer.Timers

open Linked

variable {H : Type}

/-- A node of the list with the address it lives at. -/
structure Entry (H : Type) where
  addr : Addr
  score : ℕ
  handler : H
  height : ℕ
  deriving DecidableEq

def Entry.info (e : Entry H) : NodeInfo H := ⟨e.score, e.handler, e.height⟩

/-- The order of the list. -/
abbrev Entry.Before (e e' : Entry H) : Prop := e.score ≤ e'.score

/-- The nodes of level `i`. -/
def cells (i : ℕ) (l : List (Entry H)) : List Addr :=
  (l.filter (fun e => i < e.height)).map Entry.addr

/-- The highest level that is not empty, at least 1. -/
def topLevel (l : List (Entry H)) : ℕ := (l.map Entry.height).foldr max 1

/-- The skip list holds exactly the given nodes, in the given order: level 0 is the whole
list, level `i` is the part of it with the nodes higher than `i`. -/
structure Represents (zsl : Zskiplist H) (l : List (Entry H)) : Prop where
  header : ∃ m, zsl.heap.info zsl.header = some m ∧ m.height = maxLevel
  nodes : ∀ e ∈ l, zsl.heap.info e.addr = some e.info
  heights : ∀ e ∈ l, 1 ≤ e.height ∧ e.height ≤ maxLevel
  distinct : (zsl.header :: l.map Entry.addr).Nodup
  chains : ∀ i < maxLevel, Chain (zsl.heap.next i) zsl.header (cells i l)
  sorted : l.Pairwise Entry.Before
  length_eq : zsl.length = l.length
  level_eq : zsl.level = topLevel l

variable {zsl : Zskiplist H} {l p q : List (Entry H)} {e : Entry H} {x : Addr} {i score : ℕ}

/-! ## Cells and the top level -/

@[simp] theorem cells_append : cells i (p ++ q) = cells i p ++ cells i q := by
  simp [cells]

theorem cells_cons_of_lt (h : i < e.height) : cells i (e :: q) = e.addr :: cells i q := by
  simp [cells, h]

theorem cells_cons_of_le (h : e.height ≤ i) : cells i (e :: q) = cells i q := by
  simp [cells, h]

theorem cells_zero (h : ∀ e ∈ l, 1 ≤ e.height) : cells 0 l = l.map Entry.addr := by
  unfold cells
  rw [List.filter_eq_self.mpr]
  intro e he
  have hpos := h e he
  simp only [decide_eq_true_eq]
  omega

theorem cells_sublist : (cells i l).Sublist (l.map Entry.addr) :=
  List.Sublist.map _ List.filter_sublist

theorem cells_subset_of_le {j : ℕ} (h : i ≤ j) : cells j l ⊆ cells i l := by
  intro c hc
  obtain ⟨e, he, rfl⟩ := List.mem_map.mp hc
  have hj : e ∈ l ∧ j < e.height := by simpa using he
  apply List.mem_map_of_mem
  simpa using ⟨hj.1, lt_of_le_of_lt h hj.2⟩

theorem cells_eq_nil_of_le (h : ∀ e ∈ l, e.height ≤ i) : cells i l = [] := by
  unfold cells
  rw [List.filter_eq_nil_iff.mpr]
  · rfl
  · intro e he
    simpa using h e he

theorem one_le_topLevel : 1 ≤ topLevel l := by
  unfold topLevel
  induction l with
  | nil => simp
  | cons e l ih => exact le_trans ih (le_max_right _ _)

theorem le_topLevel (h : e ∈ l) : e.height ≤ topLevel l := by
  unfold topLevel
  induction l with
  | nil => simp at h
  | cons d l ih =>
    rcases List.mem_cons.mp h with rfl | h
    · exact le_max_left _ _
    · exact le_trans (ih h) (le_max_right _ _)

theorem topLevel_le {k : ℕ} (hk : 1 ≤ k) (h : ∀ e ∈ l, e.height ≤ k) : topLevel l ≤ k := by
  unfold topLevel
  induction l with
  | nil => exact hk
  | cons d l ih =>
    exact max_le (h d (by simp)) (ih (fun e he => h e (List.mem_cons_of_mem d he)))

theorem topLevel_insert : topLevel (p ++ e :: q) = max e.height (topLevel (p ++ q)) := by
  have hperm : ((p ++ e :: q).map Entry.height).Perm (e.height :: (p ++ q).map Entry.height) :=
    List.Perm.map Entry.height List.perm_middle
  exact hperm.foldr_eq 1

/-! ## A represented list -/

namespace Represents

theorem level_le (r : Represents zsl l) : zsl.level ≤ maxLevel := by
  rw [r.level_eq]
  exact topLevel_le (by decide) (fun e he => (r.heights e he).2)

theorem level_pos (r : Represents zsl l) : 1 ≤ zsl.level := by
  rw [r.level_eq]
  exact one_le_topLevel

theorem height_le_level (r : Represents zsl l) (he : e ∈ l) : e.height ≤ zsl.level := by
  rw [r.level_eq]
  exact le_topLevel he

theorem reaches (r : Represents zsl l) (hi : i < maxLevel) {c : Addr}
    (hc : c ∈ zsl.header :: cells i l) : zsl.heap.Reaches i c := by
  rcases List.mem_cons.mp hc with rfl | hc
  · obtain ⟨m, hm, hheight⟩ := r.header
    exact ⟨m, hm, by omega⟩
  · obtain ⟨e, he, rfl⟩ := List.mem_map.mp hc
    have hmem : e ∈ l ∧ i < e.height := by simpa using he
    exact ⟨e.info, r.nodes e hmem.1, hmem.2⟩

theorem distinct_cells (r : Represents zsl l) : (zsl.header :: cells i l).Nodup :=
  r.distinct.sublist (List.Sublist.cons_cons _ cells_sublist)

theorem steps_eq (r : Represents zsl l) : zsl.steps = l.length + 1 := by
  simp [Zskiplist.steps, r.length_eq]

/-- Level 0 is the whole list. -/
theorem chain_zero (r : Represents zsl l) :
    Chain (zsl.heap.next 0) zsl.header (l.map Entry.addr) := by
  rw [← cells_zero (fun e he => (r.heights e he).1)]
  exact r.chains 0 (by decide)

theorem zslMin_eq (r : Represents zsl l) : zslMin zsl = .ok (l.head?.map Entry.addr) := by
  rw [zslMin, (r.reaches (by decide) (by simp)).forward, r.chain_zero.head_eq, List.head?_map]

/-- A node is where the list has it. -/
theorem eq_of_addr (r : Represents zsl l) {e' : Entry H} (he : e ∈ l) (he' : e' ∈ l)
    (h : e.addr = e'.addr) : e = e' :=
  List.inj_on_of_nodup_map (List.nodup_cons.mp r.distinct).2 he he' h

end Represents

/-- A list in score order falls into the smaller scores and the others. -/
theorem exists_split (h : l.Pairwise Entry.Before) (score : ℕ) :
    ∃ p q, l = p ++ q ∧ (∀ e ∈ p, e.score < score) ∧ ∀ e ∈ q, score ≤ e.score := by
  induction l with
  | nil => exact ⟨[], [], rfl, by simp, by simp⟩
  | cons d l ih =>
    obtain ⟨hd, hl⟩ := List.pairwise_cons.mp h
    by_cases hlt : d.score < score
    · obtain ⟨p, q, rfl, hp, hq⟩ := ih hl
      refine ⟨d :: p, q, rfl, ?_, hq⟩
      intro e he
      rcases List.mem_cons.mp he with rfl | he
      · exact hlt
      · exact hp e he
    · refine ⟨[], d :: l, rfl, by simp, ?_⟩
      intro e he
      have hge : score ≤ d.score := not_lt.mp hlt
      rcases List.mem_cons.mp he with rfl | he
      · exact hge
      · exact le_trans hge (hd e he)

theorem orderedInsert_of_split (hp : ∀ d ∈ p, d.score < e.score)
    (hq : ∀ d ∈ q, e.score ≤ d.score) :
    (p ++ q).orderedInsert Entry.Before e = p ++ e :: q := by
  induction p with
  | nil =>
    cases q with
    | nil => rfl
    | cons d q => exact List.orderedInsert_cons_of_le _ q (hq d (by simp))
  | cons d p ih =>
    have hno : ¬ e.score ≤ d.score := not_le.mpr (hp d (by simp))
    rw [List.cons_append, List.orderedInsert_of_not_le (r := Entry.Before) _ hno,
      ih (fun c hc => hp c (List.mem_cons_of_mem d hc)), List.cons_append]

/-! ## The search -/

/-- The last node before `score` on level `i`, where `p` holds the nodes before it. -/
def predecessor (zsl : Zskiplist H) (p : List (Entry H)) (i : ℕ) : Addr :=
  (cells i p).getLastD zsl.header

theorem predecessor_mem (zsl : Zskiplist H) (p : List (Entry H)) (i : ℕ) :
    predecessor zsl p i ∈ zsl.header :: cells i p :=
  List.getLastD_mem_cons

/-- The search ends, and `update` names the predecessors. -/
theorem Represents.zslSearch_eq (r : Represents zsl (p ++ q)) (hp : ∀ e ∈ p, e.score < score)
    (hq : ∀ e ∈ q, score ≤ e.score) {k : ℕ} (hk : k ≤ maxLevel)
    (hx : x ∈ zsl.header :: cells k p) :
    zslSearch zsl.heap score zsl.steps k x =
      .ok ((List.range k).map (predecessor zsl p), if k = 0 then x else predecessor zsl p 0) := by
  induction k generalizing x with
  | zero => simp [zslSearch]
  | succ k ih =>
    have hk' : k < maxLevel := hk
    have hxk : x ∈ zsl.header :: cells k p := by
      rcases List.mem_cons.mp hx with h | h
      · exact h ▸ List.mem_cons_self
      · exact List.mem_cons_of_mem _ (cells_subset_of_le (Nat.le_succ k) h)
    have chain := r.chains k hk'
    rw [cells_append] at chain
    obtain ⟨rest, hrest, hsuf, hlast⟩ := chain.from_mem hxk
    have member : ∀ c ∈ rest, c ∈ cells k p := fun c hc => hsuf.subset hc
    have walk : zslWalk zsl.heap score k zsl.steps x = .ok (rest.getLastD x) := by
      apply zslWalk_eq hrest
      · intro c hc
        apply r.reaches hk'
        rw [cells_append]
        rcases List.mem_cons.mp hc with rfl | hc
        · simp only [List.mem_cons, List.mem_append] at hxk ⊢
          tauto
        · have := member c hc
          simp only [List.mem_cons, List.mem_append]
          tauto
      · intro c hc
        obtain ⟨e, he, rfl⟩ := List.mem_map.mp (member c hc)
        have hep : e ∈ p := List.mem_of_mem_filter he
        exact ⟨e.info, r.nodes e (List.mem_append_left q hep), hp e hep⟩
      · intro c hc
        obtain ⟨e, he, rfl⟩ := List.mem_map.mp (List.mem_of_mem_head? hc)
        have heq : e ∈ q := List.mem_of_mem_filter he
        exact ⟨e.info, r.nodes e (List.mem_append_right p heq), hq e heq⟩
      · have h₁ := hsuf.length_le
        have h₂ := (cells_sublist (i := k) (l := p)).length_le
        rw [r.steps_eq, List.length_append]
        rw [List.length_map] at h₂
        omega
    have arrive : rest.getLastD x = predecessor zsl p k := hlast
    rw [zslSearch, walk, ok_bind, arrive, ih (Nat.le_of_succ_le hk) (predecessor_mem zsl p k), ok_bind]
    rw [List.range_succ, List.map_append]
    cases k with
    | zero => simp
    | succ k => simp

/-! ## Insertion -/

theorem Represents.fresh (r : Represents zsl l) (hx : zsl.heap x = none) :
    x ∉ zsl.header :: l.map Entry.addr := by
  have hinfo : zsl.heap.info x = none := by simp [Heap.info, hx]
  intro hmem
  rcases List.mem_cons.mp hmem with rfl | hmem
  · obtain ⟨m, hm, _⟩ := r.header
    exact absurd (hinfo.symm.trans hm) (by simp)
  · obtain ⟨e, he, rfl⟩ := List.mem_map.mp hmem
    exact absurd (hinfo.symm.trans (r.nodes e he)) (by simp)

/-- A chain that misses the new node keeps its cells. -/
theorem cells_insert_of_le (h : e.height ≤ i) : cells i (p ++ e :: q) = cells i (p ++ q) := by
  simp [cells_cons_of_le h]

theorem cells_insert_of_lt (h : i < e.height) :
    cells i (p ++ e :: q) = cells i p ++ e.addr :: cells i q := by
  simp [cells_cons_of_lt h]

/-- Insertion puts the new node before the first one that has not a smaller score. -/
theorem Represents.zslInsert (r : Represents zsl l) (hx : zsl.heap x = none) (score : ℕ)
    (func : H) (level : RandomLevel) :
    ∃ zsl', zslInsert zsl score func level x = .ok zsl' ∧ zsl'.header = zsl.header ∧
      zsl'.heap.info = Function.update zsl.heap.info x (some ⟨score, func, level.val⟩) ∧
      Represents zsl' (l.orderedInsert Entry.Before ⟨x, score, func, level.val⟩) := by
  obtain ⟨p, q, rfl, hp, hq⟩ := exists_split r.sorted score
  have hnew := r.fresh hx
  have hle : level.val ≤ maxLevel := level.le
  set e : Entry H := ⟨x, score, func, level.val⟩ with he
  set heap₁ := zslCreateNode zsl.heap x level.val score func with hheap₁
  have info₁ : heap₁.info = Function.update zsl.heap.info x (some e.info) :=
    info_zslCreateNode level.val score func
  have next₁ : ∀ i c, c ≠ x → heap₁.next i c = zsl.heap.next i c :=
    fun i c hc => next_zslCreateNode level.val score func hc
  have reach₁ : ∀ i c, zsl.heap.Reaches i c → heap₁.Reaches i c := by
    intro i c ⟨m, hm, hi⟩
    have hc : c ≠ x := by
      intro h
      subst h
      simp [Heap.info, hx] at hm
    exact ⟨m, by rw [info₁, Function.update_of_ne hc, hm], hi⟩
  have notNew : ∀ i, ∀ c ∈ zsl.header :: cells i (p ++ q), c ≠ x := by
    intro i c hc heq
    subst heq
    exact hnew ((List.Sublist.cons_cons _ cells_sublist).subset hc)
  have predMem : ∀ i, predecessor zsl p i ∈ zsl.header :: cells i (p ++ q) := by
    intro i
    have hmem := predecessor_mem zsl p i
    simp only [cells_append, List.mem_cons, List.mem_append] at hmem ⊢
    tauto
  -- the entries of `update` above the old level are the header, which is the predecessor there
  have known : ∀ i ∈ List.range level.val,
      ((List.range zsl.level).map (predecessor zsl p) ++
        List.replicate (level.val - zsl.level) zsl.header)[i]? = some (predecessor zsl p i) := by
    intro i hi
    have hlt : i < level.val := List.mem_range.mp hi
    by_cases hlow : i < zsl.level
    · rw [List.getElem?_append_left (by simpa using hlow)]
      simp [hlow]
    · have hempty : cells i p = [] := cells_eq_nil_of_le (fun d hd => by
        have := r.height_le_level (List.mem_append_left q hd)
        omega)
      rw [List.getElem?_append_right (by simpa using hlow)]
      have hin : i - zsl.level < level.val - zsl.level := by omega
      simp [predecessor, hempty, hin]
  obtain ⟨heap₂, hlink, info₂, next₂⟩ := zslLink_eq (x := x)
    List.nodup_range known (fun i _ => notNew i _ (predMem i))
    (fun i hi => reach₁ i _ (r.reaches (by have := List.mem_range.mp hi; omega) (predMem i)))
    (fun i hi => ⟨e.info, by simp [info₁], List.mem_range.mp hi⟩)
  have search := r.zslSearch_eq hp hq r.level_le (x := zsl.header) (by simp)
  refine ⟨{ zsl with
    heap := heap₂
    level := if level.val > zsl.level then level.val else zsl.level
    length := zsl.length + 1 }, ?_, rfl, info₂.trans info₁, ?_⟩
  · rw [Timers.zslInsert, search, ok_bind]
    dsimp only
    rw [hlink, ok_bind]
  · rw [orderedInsert_of_split hp hq]
    have perm : (p ++ e :: q).Perm (e :: (p ++ q)) := List.perm_middle
    have infoOther : ∀ c, c ≠ x → heap₂.info c = zsl.heap.info c := by
      intro c hc
      rw [info₂, info₁, Function.update_of_ne hc]
    constructor
    · obtain ⟨m, hm, hheight⟩ := r.header
      exact ⟨m, by rw [← hm]; exact infoOther _ (fun h => hnew (h ▸ by simp)), hheight⟩
    · intro d hd
      rcases List.mem_cons.mp (perm.mem_iff.mp hd) with rfl | hd
      · show heap₂.info x = some e.info
        rw [info₂, info₁, Function.update_self]
      · rw [← r.nodes d hd]
        exact infoOther _ (fun h => hnew (h ▸ List.mem_cons_of_mem _ (List.mem_map_of_mem hd)))
    · intro d hd
      rcases List.mem_cons.mp (perm.mem_iff.mp hd) with rfl | hd
      · exact ⟨level.pos, level.le⟩
      · exact r.heights d hd
    · have hperm : (zsl.header :: (p ++ e :: q).map Entry.addr).Perm
          (x :: zsl.header :: (p ++ q).map Entry.addr) :=
        ((perm.map Entry.addr).cons zsl.header).trans (List.Perm.swap _ _ _)
      exact hperm.nodup_iff.mpr (List.nodup_cons.mpr ⟨hnew, r.distinct⟩)
    · intro i hi
      have chain := r.chains i hi
      have member : ∀ c ∈ zsl.header :: cells i (p ++ q), c ≠ x := notNew i
      show Chain (heap₂.next i) zsl.header _
      by_cases hin : i < level.val
      · rw [cells_insert_of_lt hin]
        have hin' : i ∈ List.range level.val := List.mem_range.mpr hin
        have distinct := r.distinct_cells (i := i)
        rw [cells_append] at chain distinct member
        have hpx : predecessor zsl p i ≠ x := notNew i _ (predMem i)
        apply chain.insert distinct (fun h => member x h rfl)
        · show heap₂.next i (predecessor zsl p i) = some x
          rw [next₂, if_pos ⟨hin', rfl⟩]
        · show heap₂.next i x = zsl.heap.next i (predecessor zsl p i)
          rw [next₂, if_neg (fun h => hpx h.2.symm), if_pos ⟨hin', rfl⟩, next₁ i _ hpx]
        · intro c hc hcx
          rw [next₂, if_neg (fun h => hc h.2), if_neg (fun h => hcx h.2), next₁ i c hcx]
      · rw [cells_insert_of_le (not_lt.mp hin)]
        apply chain.congr
        intro c hc
        have hout : i ∉ List.range level.val := fun h => hin (List.mem_range.mp h)
        rw [next₂, if_neg (fun h => hout h.1), if_neg (fun h => hout h.1),
          next₁ i c (member c hc)]
    · have hsorted := List.Pairwise.orderedInsert (r := Entry.Before) e (p ++ q) r.sorted
      rwa [orderedInsert_of_split hp hq] at hsorted
    · show zsl.length + 1 = ((p ++ e :: q).length : ℤ)
      rw [r.length_eq, perm.length_eq]
      simp
    · show (if level.val > zsl.level then level.val else zsl.level) = topLevel (p ++ e :: q)
      rw [topLevel_insert, ← r.level_eq]
      show _ = max level.val zsl.level
      split <;> omega

/-! ## Deletion -/

/-- The level goes down to the highest one that is not empty. -/
theorem zslShrink_eq {heap : Heap H} {header : Addr} {k : ℕ}
    (reach : ∀ i < maxLevel, heap.Reaches i header)
    (chains : ∀ i < maxLevel, Chain (heap.next i) header (cells i l))
    (hk : 1 ≤ k) (hmax : k ≤ maxLevel) (bound : ∀ e ∈ l, e.height ≤ k) :
    zslShrink heap header k = .ok (topLevel l) := by
  induction k with
  | zero => omega
  | succ k ih =>
    cases k with
    | zero =>
      have htop : topLevel l = 1 := le_antisymm (topLevel_le le_rfl bound) one_le_topLevel
      rw [zslShrink, htop]
    | succ k =>
      have hlt : k + 1 < maxLevel := hmax
      rw [zslShrink, (reach _ hlt).forward, ok_bind, (chains _ hlt).head_eq]
      by_cases hempty : cells (k + 1) l = []
      · rw [hempty, List.head?_nil, if_pos rfl]
        apply ih (by omega) (by omega)
        intro e he
        by_contra hhigh
        have hmem : e.addr ∈ cells (k + 1) l :=
          List.mem_map_of_mem (List.mem_filter.mpr ⟨he, by simpa using hhigh⟩)
        simp [hempty] at hmem
      · rw [if_neg (by simpa using hempty)]
        obtain ⟨c, hc⟩ := List.exists_mem_of_ne_nil _ hempty
        obtain ⟨e, he, -⟩ := List.mem_map.mp hc
        have hmem : e ∈ l ∧ k + 1 < e.height := by simpa using he
        have htop : k + 2 ≤ topLevel l := le_trans hmem.2 (le_topLevel hmem.1)
        rw [le_antisymm (topLevel_le (by omega) bound) htop]

/-- Taking a node out of the chains leaves a list that represents the others. The node named
at a level is the last one before it there. -/
theorem Represents.unlink (r : Represents zsl (p ++ e :: q)) (before : ℕ → Except Fault Addr)
    (is : List ℕ) (distinct : is.Nodup) (all : ∀ i, i ∈ is ↔ i < zsl.level)
    (known : ∀ i ∈ is, before i = .ok (predecessor zsl p i)) :
    ∃ heap' level', zslUnlink e.addr before is zsl.heap = .ok heap' ∧
      zslShrink heap' zsl.header zsl.level = .ok level' ∧ heap'.info = zsl.heap.info ∧
      Represents { zsl with heap := heap', level := level', length := zsl.length - 1 }
        (p ++ q) := by
  have perm : (p ++ e :: q).Perm (e :: (p ++ q)) := List.perm_middle
  have rest : ∀ d ∈ p ++ q, d ∈ p ++ e :: q :=
    fun d hd => perm.mem_iff.mpr (List.mem_cons_of_mem e hd)
  have heMem : e ∈ p ++ e :: q := by simp
  have hlevel := r.level_le
  have hperm : (zsl.header :: (p ++ e :: q).map Entry.addr).Perm
      (e.addr :: zsl.header :: (p ++ q).map Entry.addr) :=
    ((perm.map Entry.addr).cons zsl.header).trans (List.Perm.swap _ _ _)
  obtain ⟨hgone, hkept⟩ := List.nodup_cons.mp (hperm.nodup_iff.mp r.distinct)
  have predMem : ∀ i, predecessor zsl p i ∈ zsl.header :: cells i (p ++ q) := by
    intro i
    have hmem := predecessor_mem zsl p i
    simp only [cells_append, List.mem_cons, List.mem_append] at hmem ⊢
    tauto
  have notGone : ∀ i, ∀ c ∈ zsl.header :: cells i (p ++ q), c ≠ e.addr := by
    intro i c hc heq
    subst heq
    exact hgone ((List.Sublist.cons_cons _ cells_sublist).subset hc)
  have reach : ∀ i < maxLevel, ∀ c ∈ zsl.header :: cells i (p ++ q), zsl.heap.Reaches i c := by
    intro i hi c hc
    apply r.reaches hi
    rcases List.mem_cons.mp hc with rfl | hc
    · exact List.mem_cons_self
    · obtain ⟨d, hd, rfl⟩ := List.mem_map.mp hc
      have hmem := List.mem_filter.mp hd
      exact List.mem_cons_of_mem _
        (List.mem_map_of_mem (List.mem_filter.mpr ⟨rest d hmem.1, hmem.2⟩))
  -- the node follows its predecessor exactly at the levels it takes part in
  have follows : ∀ i < maxLevel,
      (zsl.heap.next i (predecessor zsl p i) = some e.addr ↔ i < e.height) := by
    intro i hi
    have chain := r.chains i hi
    by_cases hin : i < e.height
    · rw [cells_insert_of_lt hin] at chain
      exact iff_of_true (chain_append_iff.mp chain).2.1 hin
    · rw [cells_insert_of_le (not_lt.mp hin), cells_append] at chain
      refine iff_of_false ?_ hin
      intro h
      have hhead := (chain_append_iff.mp chain).2.head_eq.symm.trans h
      apply notGone i e.addr _ rfl
      rw [cells_append]
      exact List.mem_cons_of_mem _ (List.mem_append_right _ (List.mem_of_mem_head? hhead))
  obtain ⟨heap', hunlink, info', next'⟩ := zslUnlink_eq (x := e.addr)
    distinct known (fun i _ => notGone i _ (predMem i))
    (fun i hi => reach i (lt_of_lt_of_le ((all i).mp hi) hlevel) _ (predMem i))
    (fun i hi h => ⟨e.info, r.nodes e heMem,
      (follows i (lt_of_lt_of_le ((all i).mp hi) hlevel)).mp h⟩)
  have chains' : ∀ i < maxLevel, Chain (heap'.next i) zsl.header (cells i (p ++ q)) := by
    intro i hi
    have chain := r.chains i hi
    by_cases hin : i < e.height
    · have hmem : i ∈ is := (all i).mpr (lt_of_lt_of_le hin (r.height_le_level heMem))
      have hdist := r.distinct_cells (i := i)
      rw [cells_insert_of_lt hin] at chain hdist
      rw [cells_append]
      apply chain.unlink hdist
      · show heap'.next i (predecessor zsl p i) = _
        rw [next', if_pos ⟨hmem, rfl, (follows i hi).mpr hin⟩]
      · intro c hc _
        rw [next', if_neg (fun h => hc h.2.1)]
    · rw [cells_insert_of_le (not_lt.mp hin)] at chain
      apply chain.congr
      intro c _
      rw [next', if_neg (fun h => hin ((follows i hi).mp h.2.2))]
  have heights' : ∀ d ∈ p ++ q, 1 ≤ d.height ∧ d.height ≤ maxLevel :=
    fun d hd => r.heights d (rest d hd)
  have shrink : zslShrink heap' zsl.header zsl.level = .ok (topLevel (p ++ q)) := by
    apply zslShrink_eq _ chains' r.level_pos hlevel
    · exact fun d hd => r.height_le_level (rest d hd)
    · intro i hi
      obtain ⟨m, hm, hheight⟩ := r.header
      exact ⟨m, by rw [info', hm], by omega⟩
  refine ⟨heap', topLevel (p ++ q), hunlink, shrink, info', ?_⟩
  constructor
  · obtain ⟨m, hm, hheight⟩ := r.header
    exact ⟨m, by rw [← hm]; exact congrFun info' _, hheight⟩
  · intro d hd
    rw [← r.nodes d (rest d hd)]
    exact congrFun info' _
  · exact heights'
  · exact hkept
  · exact chains'
  · exact r.sorted.sublist (List.Sublist.append_left (List.sublist_cons_self e q) p)
  · show zsl.length - 1 = ((p ++ q).length : ℤ)
    rw [r.length_eq, perm.length_eq]
    simp
  · rfl

/-- The head goes out of the list and stays allocated. -/
theorem Represents.zslDeleteHead (r : Represents zsl l) :
    ∃ zsl', zslDeleteHead zsl = .ok zsl' ∧ zsl'.header = zsl.header ∧
      zsl'.heap.info = zsl.heap.info ∧ Represents zsl' l.tail := by
  cases l with
  | nil => exact ⟨zsl, by rw [Timers.zslDeleteHead, r.zslMin_eq]; rfl, rfl, rfl, r⟩
  | cons e l =>
    obtain ⟨heap', level', hunlink, hshrink, info', r'⟩ :=
      Represents.unlink (p := []) r (fun _ => .ok zsl.header) (List.range zsl.level).reverse
        (List.nodup_reverse.mpr List.nodup_range) (by simp) (fun _ _ => rfl)
    refine ⟨{ zsl with heap := heap', level := level', length := zsl.length - 1 }, ?_, rfl,
      info', r'⟩
    rw [Timers.zslDeleteHead, r.zslMin_eq, ok_bind]
    show (zslUnlink e.addr _ _ _ >>= _) = _
    rw [hunlink, ok_bind, hshrink, ok_bind]

/-- Memory that is in no chain can be freed. -/
theorem Represents.free (r : Represents zsl l) (hx : x ∉ zsl.header :: l.map Entry.addr) :
    Represents { zsl with heap := Function.update zsl.heap x none } l := by
  have away : ∀ c ∈ zsl.header :: l.map Entry.addr, c ≠ x := fun c hc h => hx (h ▸ hc)
  constructor
  · obtain ⟨m, hm, hheight⟩ := r.header
    exact ⟨m, by rw [← hm]; exact info_free (away _ (by simp)), hheight⟩
  · intro e he
    rw [← r.nodes e he]
    exact info_free (away _ (List.mem_cons_of_mem _ (List.mem_map_of_mem he)))
  · exact r.heights
  · exact r.distinct
  · intro i hi
    apply (r.chains i hi).congr
    intro c hc
    exact next_free (away c ((List.Sublist.cons_cons _ cells_sublist).subset hc))
  · exact r.sorted
  · exact r.length_eq
  · exact r.level_eq

/-- `zslDelete` takes out and frees the first node that has the score of the given one. -/
theorem Represents.zslDelete (r : Represents zsl l) (he : e ∈ l) :
    ∃ d p q zsl', l = p ++ d :: q ∧ d.score = e.score ∧ (∀ c ∈ p, c.score < e.score) ∧
      zslDelete zsl e.addr = .ok zsl' ∧ zsl'.header = zsl.header ∧
      zsl'.heap.info = Function.update zsl.heap.info d.addr none ∧
      Represents zsl' (p ++ q) := by
  obtain ⟨p, q, rfl, hp, hq⟩ := exists_split r.sorted e.score
  have heq : e ∈ q := by
    rcases List.mem_append.mp he with h | h
    · exact absurd (hp e h) (lt_irrefl _)
    · exact h
  cases q with
  | nil => simp at heq
  | cons d q =>
    have hscore : d.score = e.score := by
      have hge := hq d (by simp)
      have hsorted := (List.pairwise_append.mp r.sorted).2.1
      rcases List.mem_cons.mp heq with rfl | h
      · rfl
      · exact le_antisymm ((List.pairwise_cons.mp hsorted).1 e h) hge
    have hd : d ∈ p ++ d :: q := by simp
    obtain ⟨n, -, hn, hninfo⟩ := Heap.node_of_info (r.nodes e he)
    obtain ⟨m, -, hm, hminfo⟩ := Heap.node_of_info (r.nodes d hd)
    have hnscore : n.score = e.score := congrArg NodeInfo.score hninfo
    have hmscore : m.score = d.score := congrArg NodeInfo.score hminfo
    have search := r.zslSearch_eq hp hq r.level_le (x := zsl.header) (by simp)
    have hlevel : zsl.level ≠ 0 := by have := r.level_pos; omega
    rw [if_neg hlevel] at search
    have chain := r.chains 0 (by decide)
    rw [cells_append, cells_cons_of_lt (r.heights d hd).1] at chain
    have arrive : zsl.heap.forward (predecessor zsl p 0) 0 = .ok (some d.addr) := by
      have hreach : zsl.heap.Reaches 0 (predecessor zsl p 0) := by
        apply r.reaches (by decide)
        have hmem := predecessor_mem zsl p 0
        simp only [cells_append, List.mem_cons, List.mem_append] at hmem ⊢
        tauto
      rw [hreach.forward]
      exact congrArg Except.ok (chain_append_iff.mp chain).2.1
    obtain ⟨heap', level', hunlink, hshrink, info', r'⟩ :=
      r.unlink (updateAt ((List.range zsl.level).map (predecessor zsl p))) (List.range zsl.level)
        List.nodup_range (by simp)
        (fun i hi => updateAt_eq (by simp [List.mem_range.mp hi]))
    have hgone : d.addr ∉ zsl.header :: (p ++ q).map Entry.addr := by
      have hperm : (zsl.header :: (p ++ d :: q).map Entry.addr).Perm
          (d.addr :: zsl.header :: (p ++ q).map Entry.addr) :=
        ((List.perm_middle.map Entry.addr).cons zsl.header).trans (List.Perm.swap _ _ _)
      exact (List.nodup_cons.mp (hperm.nodup_iff.mp r.distinct)).1
    refine ⟨d, p, q, { zsl with
      heap := Function.update heap' d.addr none
      level := level'
      length := zsl.length - 1 }, rfl, hscore, hp, ?_, rfl, ?_, r'.free hgone⟩
    · rw [Timers.zslDelete, hn, ok_bind, hnscore, search, ok_bind]
      show (zsl.heap.forward (predecessor zsl p 0) 0 >>= _) = _
      rw [arrive, ok_bind]
      show (zsl.heap.node d.addr >>= _) = _
      rw [hm, ok_bind, hmscore, if_pos hscore.symm]
      show (zslDeleteNode zsl d.addr _ >>= _) = _
      rw [zslDeleteNode, hunlink, ok_bind, hshrink, ok_bind, ok_bind]
    · ext c
      by_cases hc : c = d.addr
      · subst hc
        simp [Heap.info]
      · rw [Function.update_of_ne hc, ← info']
        rw [show Heap.info _ c = heap'.info c from info_free hc]

/-! ## The empty list -/

theorem represents_zslCreate (header : Addr) (defaultHandler : H) :
    Represents (zslCreate header defaultHandler) [] := by
  constructor
  · refine ⟨⟨0, defaultHandler, maxLevel⟩, ?_, rfl⟩
    show (zslCreateNode _ _ _ _ _).info header = _
    rw [info_zslCreateNode, Function.update_self]
  · simp
  · simp
  · simp
  · intro i hi
    show Heap.next _ i header = none
    simp [Heap.next, zslCreate, zslCreateNode, hi]
  · exact List.Pairwise.nil
  · rfl
  · rfl

end CServer.Timers
