import CServer.PageCount.Tree
import Mathlib.Algebra.BigOperators.Group.List.Basic
import Mathlib.Data.List.Dedup
import Mathlib.Data.List.Count

/-!
# Requests to the page counter

After the requests of some clients the tree holds one node for each client with the number of its
requests, and the page lists them, as long as the text of the page fits into its array.
-/
namespace CServer.PageCount

open RedBlack RedBlack.ColorTree

variable {nil z : Addr} {t : NgxRbtree} {T : ColorTree (Cell PageEntry)} {e : PageEntry}
variable {entries : List PageEntry} {html : Text} {history : List UInt32} {a : UInt32} {s s' : Server}
variable {xs ys : List (Cell PageEntry)} {x : Cell PageEntry}
variable {rebalance : Addr → NgxRbtree → NgxRbtree} {page : Text}

/-! ## The text of a page -/

def header : Text := "<h1>Source Insight </h1>".toList ++ "<h2>".toList

def footer : Text := "</h2>".toList

def pageText (entries : List PageEntry) : Text := header ++ (entries.map line).flatten ++ footer

theorem decimal_natCast (n : ℕ) : decimal n = Nat.toDigits 10 n := rfl

theorem length_byte (n : ℕ) : (Nat.toDigits 10 (n % 256)).length ≤ 3 :=
  (Nat.length_toDigits_le_iff (by decide) (by decide)).mpr (by omega)

theorem length_inetNtoa (addr : ℕ) : (inetNtoa addr).length ≤ 3 + (3 + 1) + (3 + 1) + (3 + 1) := by
  rw [inetNtoa, List.length_append, List.length_append, List.length_append, List.length_cons,
    List.length_cons, List.length_cons]
  exact Nat.add_le_add (Nat.add_le_add (Nat.add_le_add (length_byte _)
    (Nat.succ_le_succ (length_byte _))) (Nat.succ_le_succ (length_byte _)))
    (Nat.succ_le_succ (length_byte _))

/-- The line of a client fits into its buffer. -/
theorem length_line (hpos : 0 ≤ e.value) (hlt : e.value < 2 ^ 31) : (line e).length < 128 := by
  obtain ⟨n, hn⟩ := Int.eq_ofNat_of_zero_le hpos
  have hcount : (decimal e.value).length ≤ 10 := by
    rw [hn, decimal_natCast, Nat.length_toDigits_le_iff (by decide) (by decide)]
    omega
  have haddr := length_inetNtoa (e.key % 2 ^ 32)
  unfold line
  rw [List.length_append, List.length_append, List.length_append, List.length_append]
  have hfirst : "req from : ".toList.length = 11 := rfl
  have hmiddle : ", count: ".toList.length = 9 := rfl
  have hlast : " <br/>".toList.length = 6 := rfl
  omega

/-- A text that does not fit stays so with more behind it. -/
theorem sprintf_bind_strcat (text more : Text) :
    (sprintf htmlSize text >>= fun html => strcat html more) = sprintf htmlSize (text ++ more) := by
  by_cases hfits : text.length < htmlSize
  · rw [sprintf, if_pos hfits, ok_bind, strcat]
  · have hlong : ¬(text ++ more).length < htmlSize := by
      rw [List.length_append]
      omega
    rw [sprintf, if_neg hfits, error_bind, sprintf, if_neg hlong]

theorem foldlM_iterator (hlines : ∀ e ∈ entries, (line e).length < 128) (text : Text) :
    (sprintf htmlSize text >>= fun html =>
      entries.foldlM (fun html e => ngxHttpCountRbtreeIterator e html) html) =
      sprintf htmlSize (text ++ (entries.map line).flatten) := by
  induction entries generalizing text with
  | nil =>
    rw [List.map_nil, List.flatten_nil, List.append_nil]
    by_cases hfits : text.length < htmlSize
    · rw [sprintf, if_pos hfits, ok_bind]
      rfl
    · rw [sprintf, if_neg hfits, error_bind]
  | cons e entries ih =>
    have hline : ∀ html, ngxHttpCountRbtreeIterator e html = strcat html (line e) := by
      intro html
      rw [ngxHttpCountRbtreeIterator, sprintf, if_pos (hlines e List.mem_cons_self), ok_bind]
    rw [List.map_cons, List.flatten_cons, ← List.append_assoc,
      ← ih (fun e he => hlines e (List.mem_cons_of_mem _ he)), ← sprintf_bind_strcat, bind_assoc]
    refine bind_congr fun html => ?_
    rw [List.foldlM_cons, hline]

/-- The page is the text for the nodes in their order, unless that is too long. -/
theorem Shows.encode (h : Shows nil t T) (hlines : ∀ x ∈ T.toList, (line x.value).length < 128)
    {turns : ℕ} (hturns : T.toList.length < turns) :
    ngxEncodeHttpPageRb turns nil t = sprintf htmlSize (pageText (T.toList.map Cell.value)) := by
  have hheader : ∀ k : Text → Except Fault Text,
      (sprintf htmlSize "<h1>Source Insight </h1>".toList >>= fun html =>
        strcat html "<h2>".toList >>= k) = (sprintf htmlSize header >>= k) := fun k => rfl
  rw [ngxEncodeHttpPageRb, hheader, pageText, footer, ← sprintf_bind_strcat, ← foldlM_iterator,
    bind_assoc]
  · refine bind_congr fun html => ?_
    rw [h.traversal _ hturns, List.foldlM_map]
  · rw [List.forall_mem_map]
    exact hlines

/-! ## Counting -/

/-- One node for each client of a history, with its number of requests, in the order of the keys. -/
structure Tally (history : List UInt32) (cells : List (Cell PageEntry)) : Prop where
  increasing : Increasing keyOf cells
  sound : ∀ x ∈ cells, ∃ a ∈ history, x.value = ⟨a.toNat, history.count a⟩
  complete : ∀ a ∈ history, ∃ x ∈ cells, x.value = ⟨a.toNat, history.count a⟩
  total : (cells.map fun x => x.value.value).sum = history.length

theorem tally_nil : Tally [] [] :=
  ⟨List.Pairwise.nil, by simp, by simp, rfl⟩

theorem count_of_ne {b : UInt32} (hne : b ≠ a) : (history ++ [a]).count b = history.count b := by
  rw [List.count_append, List.count_singleton, if_neg (by simpa using hne.symm), Nat.add_zero]

theorem count_self : (history ++ [a]).count a = history.count a + 1 := by
  rw [List.count_append, List.count_singleton_self]

theorem Tally.value_of_ne (h : Tally history (xs ++ ys)) (hx : x ∈ xs ++ ys)
    (hne : keyOf x ≠ a.toNat) :
    ∃ b ∈ history ++ [a], x.value = ⟨b.toNat, (history ++ [a]).count b⟩ := by
  obtain ⟨b, hb, hvalue⟩ := h.sound x hx
  refine ⟨b, List.mem_append_left _ hb, ?_⟩
  rw [count_of_ne, hvalue]
  rintro rfl
  exact hne (congrArg PageEntry.key hvalue)

/-- The first request of a client. -/
theorem Tally.insert (h : Tally history (xs ++ ys)) (hxs : ∀ x ∈ xs, keyOf x < a.toNat)
    (hys : ∀ y ∈ ys, a.toNat < keyOf y) :
    Tally (history ++ [a]) (xs ++ ⟨z, ⟨a.toNat, 1⟩⟩ :: ys) := by
  have hkey : ∀ x ∈ xs ++ ys, keyOf x ≠ a.toNat := by
    intro x hx
    rcases List.mem_append.mp hx with hx | hx
    · exact Nat.ne_of_lt (hxs x hx)
    · exact Nat.ne_of_gt (hys x hx)
  have hnew : a ∉ history := by
    intro ha
    obtain ⟨x, hx, hvalue⟩ := h.complete a ha
    exact hkey x hx (congrArg PageEntry.key hvalue)
  have hcount : (history ++ [a]).count a = 1 := by
    rw [count_self, List.count_eq_zero_of_not_mem hnew]
  have hmem : ∀ x, x ∈ xs ++ ⟨z, ⟨a.toNat, 1⟩⟩ :: ys ↔ x = ⟨z, ⟨a.toNat, 1⟩⟩ ∨ x ∈ xs ++ ys := by
    intro x
    rw [List.mem_append, List.mem_cons, List.mem_append]
    tauto
  refine ⟨increasing_append_cons.mpr ⟨h.increasing, hxs, hys⟩, ?_, ?_, ?_⟩
  · intro x hx
    rcases (hmem x).mp hx with rfl | hx
    · exact ⟨a, List.mem_append_right _ List.mem_cons_self, by rw [hcount]; rfl⟩
    · exact h.value_of_ne hx (hkey x hx)
  · intro b hb
    rcases List.mem_append.mp hb with hold | hlast
    · obtain ⟨x, hx, hvalue⟩ := h.complete b hold
      have hba : b ≠ a := fun hba => hnew (hba ▸ hold)
      exact ⟨x, (hmem x).mpr (.inr hx), by rw [count_of_ne hba, hvalue]⟩
    · obtain rfl := List.mem_singleton.mp hlast
      exact ⟨_, (hmem _).mpr (.inl rfl), by rw [hcount]; rfl⟩
  · have htotal := h.total
    simp only [List.map_append, List.sum_append, List.map_cons, List.sum_cons, List.length_append,
      List.length_singleton] at htotal ⊢
    omega

/-- One more request of a client. -/
theorem Tally.recount (h : Tally history (xs ++ x :: ys)) (hkey : keyOf x = a.toNat) :
    Tally (history ++ [a]) (xs ++ ⟨x.addr, ⟨a.toNat, x.value.value + 1⟩⟩ :: ys) := by
  obtain ⟨hothers, hxs, hys⟩ := increasing_append_cons.mp h.increasing
  have hne : ∀ y ∈ xs ++ ys, keyOf y ≠ a.toNat := by
    intro y hy
    rw [← hkey]
    rcases List.mem_append.mp hy with hy | hy
    · exact Nat.ne_of_lt (hxs y hy)
    · exact Nat.ne_of_gt (hys y hy)
  obtain ⟨b, hb, hvalue⟩ := h.sound x (List.mem_append_right _ List.mem_cons_self)
  obtain rfl : b = a := UInt32.toNat_inj.mp ((congrArg PageEntry.key hvalue).symm.trans hkey)
  have hnew : (⟨b.toNat, x.value.value + 1⟩ : PageEntry) =
      ⟨b.toNat, (history ++ [b]).count b⟩ := by
    rw [hvalue, count_self]
    rfl
  have hmem : ∀ y, y ∈ xs ++ ⟨x.addr, ⟨b.toNat, x.value.value + 1⟩⟩ :: ys ↔
      y = ⟨x.addr, ⟨b.toNat, x.value.value + 1⟩⟩ ∨ y ∈ xs ++ ys := by
    intro y
    rw [List.mem_append, List.mem_cons, List.mem_append]
    tauto
  have hsub : ∀ y ∈ xs ++ ys, y ∈ xs ++ x :: ys := by
    intro y hy
    rw [List.mem_append, List.mem_cons]
    rw [List.mem_append] at hy
    tauto
  have hold : ∀ c ∈ history, c ≠ b → ∃ y ∈ xs ++ ys, y.value = ⟨c.toNat, history.count c⟩ := by
    intro c hc hcb
    obtain ⟨y, hy, hyvalue⟩ := h.complete c hc
    rw [List.mem_append, List.mem_cons] at hy
    refine ⟨y, ?_, hyvalue⟩
    rw [List.mem_append]
    rcases hy with hy | rfl | hy
    · exact .inl hy
    · exact absurd (UInt32.toNat_inj.mp ((congrArg PageEntry.key hyvalue).symm.trans hkey)) hcb
    · exact .inr hy
  refine ⟨increasing_append_cons.mpr ⟨hothers, ?_, ?_⟩, ?_, ?_, ?_⟩
  · intro y hy
    exact hkey ▸ hxs y hy
  · intro y hy
    exact hkey ▸ hys y hy
  · intro y hy
    rcases (hmem y).mp hy with rfl | hother
    · exact ⟨b, List.mem_append_left _ hb, hnew⟩
    · obtain ⟨c, hc, hyvalue⟩ := h.sound y (hsub y hother)
      have hcb : c ≠ b := by
        rintro rfl
        exact hne y hother (congrArg PageEntry.key hyvalue)
      exact ⟨c, List.mem_append_left _ hc, by rw [count_of_ne hcb, hyvalue]⟩
  · intro c hc
    by_cases hcb : c = b
    · subst hcb
      exact ⟨_, (hmem _).mpr (.inl rfl), hnew⟩
    · have hc : c ∈ history := by
        rw [List.mem_append, List.mem_singleton] at hc
        exact hc.resolve_right hcb
      obtain ⟨y, hy, hyvalue⟩ := hold c hc hcb
      exact ⟨y, (hmem y).mpr (.inr hy), by rw [count_of_ne hcb, hyvalue]⟩
  · have htotal := h.total
    simp only [List.map_append, List.sum_append, List.map_cons, List.sum_cons, List.length_append,
      List.length_singleton] at htotal ⊢
    omega

end CServer.PageCount
