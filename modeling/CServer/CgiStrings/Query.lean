import CServer.Foundation.CStrings
import Mathlib.Data.List.Infix

/-!
# The values of a query

`query_parse_key_value` of util_cgi.c looks for the key anywhere in the query, and takes what comes
one place behind it up to `&`, `#` or the end. It is compared with the parameters of the query.
-/
namespace CServer.CgiStrings

open CStrings

/-- `strstr`: the place of the first occurrence. -/
def strstr (key : Bytes) : Bytes → Option ℕ
  | [] => if key <+: [] then some 0 else none
  | c :: rest => if key <+: c :: rest then some 0 else (strstr key rest).map (· + 1)

/-- What `end` stops at. -/
def isEnd (c : UInt8) : Bool := c = 0 ∨ c = 35 ∨ c = 38

/-- What the call leaves: its result, the buffer and what it has stored at `value_len_p`. -/
structure Parsed where
  result : ℤ
  value : Bytes
  valueLen : Option ℕ
  deriving DecidableEq

/-- `query_parse_key_value` on a buffer. The memory of the query ends with its terminator. -/
def queryParseKeyValue (query key value : Bytes) : Except Fault Parsed :=
  match strstr key query with
  | none => .ok ⟨-1, value, none⟩
  | some found => do
    let temp := found + key.length + 1
    let text ← readUntil isEnd (query ++ [0]) temp
    let value ← copyTo text value 0
    let value ← store value text.length 0
    .ok ⟨0, value, some text.length⟩

/-! ## Parameters -/

/-- The name of a parameter, up to the first `=`. -/
def paramName (param : Bytes) : Bytes := param.takeWhile (· ≠ 61)

/-- What follows the first `=`, up to a `#`. -/
def paramValue (param : Bytes) : Bytes := ((param.dropWhile (· ≠ 61)).drop 1).takeWhile (· ≠ 35)

/-- The value of the first parameter with a name. -/
def lookup (query key : Bytes) : Option Bytes :=
  ((query.splitOn 38).find? fun param => paramName param = key).map paramValue

/-- The call gives the value of the parameter, and touches nothing outside. -/
def Serves (query key buffer : Bytes) : Prop :=
  match lookup query key with
  | none => queryParseKeyValue query key buffer = .ok ⟨-1, buffer, none⟩
  | some value => ∃ behind, queryParseKeyValue query key buffer =
      .ok ⟨0, value ++ 0 :: behind, some value.length⟩

/-- The first occurrence of the key stands behind `front`. -/
def First (query key front : Bytes) : Prop :=
  front ++ key <+: query ∧ ∀ earlier, earlier ++ key <+: query → front.length ≤ earlier.length

/-- The text up to the next `#` or `&`. -/
def leading (text : Bytes) : Bytes := text.takeWhile fun c => c ≠ 35 && c ≠ 38

/-- The key begins a parameter, and an `=` follows it. -/
def Opens (query key front : Bytes) : Prop :=
  (front = [] ∨ front.getLast? = some 38) ∧ front ++ key ++ [61] <+: query

variable {query key front earlier back buffer : Bytes} {c : UInt8} {n : ℕ}

/-! ## The first occurrence -/

theorem strstr_eq_none_iff : strstr key query = none ↔ ¬key <:+: query := by
  induction query with
  | nil =>
    rw [strstr]
    by_cases hkey : key <+: []
    · simp [hkey, hkey.isInfix]
    · rw [if_neg hkey]
      refine iff_of_true rfl fun hinfix => hkey ?_
      rw [List.infix_nil.mp hinfix]
  | cons c rest ih =>
    rw [strstr, List.infix_cons_iff, not_or, ← ih]
    by_cases hkey : key <+: c :: rest
    · simp [hkey]
    · simp [hkey]

theorem first_of_strstr (h : strstr key query = some n) :
    ∃ front, front.length = n ∧ First query key front := by
  induction query generalizing n with
  | nil =>
    rw [strstr] at h
    split_ifs at h with hkey
    exact ⟨[], Option.some.inj h, hkey, fun _ _ => Nat.zero_le _⟩
  | cons c rest ih =>
    rw [strstr] at h
    by_cases hkey : key <+: c :: rest
    · rw [if_pos hkey] at h
      exact ⟨[], Option.some.inj h, hkey, fun _ _ => Nat.zero_le _⟩
    · rw [if_neg hkey, Option.map_eq_some_iff] at h
      obtain ⟨m, hm, rfl⟩ := h
      obtain ⟨front, rfl, hoccurs, hleast⟩ := ih hm
      refine ⟨c :: front, rfl, List.cons_prefix_cons.mpr ⟨rfl, hoccurs⟩, fun earlier hearlier => ?_⟩
      cases earlier with
      | nil => exact absurd hearlier hkey
      | cons d earlier =>
        exact Nat.succ_le_succ (hleast earlier (List.cons_prefix_cons.mp hearlier).2)

theorem First.unique (h : First query key front) (h' : First query key earlier) :
    front = earlier := by
  have hlength : front.length = earlier.length := Nat.le_antisymm (h.2 _ h'.1) (h'.2 _ h.1)
  have hprefix := List.prefix_of_prefix_length_le ((List.prefix_append front key).trans h.1)
    ((List.prefix_append earlier key).trans h'.1) (Nat.le_of_eq hlength)
  exact hprefix.eq_of_length hlength

theorem First.infix (h : First query key front) : key <:+: query :=
  (List.suffix_append front key).isInfix.trans h.1.isInfix

/-! ## Parameters with the name -/

theorem infix_of_mem_splitOn {param : Bytes} (h : param ∈ query.splitOn 38) : param <:+: query := by
  have hmem : ∀ parts : List Bytes, param ∈ parts → param <:+: [(38 : UInt8)].intercalate parts := by
    intro parts hparam
    induction parts with
    | nil => simp at hparam
    | cons part parts ih =>
      cases parts with
      | nil =>
        rw [List.mem_singleton.mp hparam, List.intercalate_singleton]
      | cons next parts =>
        rw [List.intercalate_cons_cons]
        rcases List.mem_cons.mp hparam with rfl | hrest
        · exact ((List.prefix_append _ _).trans (List.prefix_append _ _)).isInfix
        · exact (ih hrest).trans (List.suffix_append _ _).isInfix
  have hjoin : [38].intercalate (query.splitOn 38) = query := List.intercalate_splitOn 38
  rw [← hjoin]
  exact hmem _ h

theorem key_infix_of_name {param : Bytes} (hparam : param ∈ query.splitOn 38)
    (hname : paramName param = key) : key <:+: query := by
  rw [← hname]
  exact (List.takeWhile_prefix _).isInfix.trans (infix_of_mem_splitOn hparam)

theorem infix_of_lookup {value : Bytes} (h : lookup query key = some value) : key <:+: query := by
  obtain ⟨param, hfind, -⟩ := Option.map_eq_some_iff.mp h
  have hname : paramName param = key := by simpa using List.find?_some hfind
  exact key_infix_of_name (List.mem_of_find?_eq_some hfind) hname

/-- The first parameter reaches to the first `&`. -/
theorem splitOn_head (text : Bytes) :
    ∃ more, text.splitOn 38 = text.takeWhile (· ≠ 38) :: more := by
  by_cases hmem : (38 : UInt8) ∈ text
  · obtain ⟨first, rest, rfl, hfirst⟩ := List.eq_append_cons_of_mem hmem
    refine ⟨rest.splitOn 38, ?_⟩
    rw [List.splitOn_append_cons_self_of_not_mem hfirst, takeWhile_ne_append hfirst]
  · refine ⟨[], ?_⟩
    have hall : text.takeWhile (· ≠ 38) = text :=
      List.takeWhile_eq_self_iff.mpr (passes_of_notMem hmem)
    rw [List.splitOn_eq_singleton hmem, hall]

theorem paramName_append (hkey : 61 ∉ key) (value : Bytes) :
    paramName (key ++ 61 :: value) = key := takeWhile_ne_append hkey value

theorem paramValue_append (hkey : 61 ∉ key) (value : Bytes) :
    paramValue (key ++ 61 :: value) = value.takeWhile (· ≠ 35) := by
  rw [paramValue, dropWhile_ne_append hkey, List.drop_succ_cons, List.drop_zero]

/-- A parameter that begins with the key and an `=` has the name. -/
theorem lookup_cons (hkey : 61 ∉ key) (hsep : 38 ∉ key) (back : Bytes) :
    lookup (key ++ 61 :: back) key = some (leading back) := by
  obtain ⟨more, hsplit⟩ := splitOn_head (key ++ 61 :: back)
  have hhead : (key ++ 61 :: back).takeWhile (· ≠ 38) = key ++ 61 :: back.takeWhile (· ≠ 38) := by
    rw [List.takeWhile_append_of_pos (passes_of_notMem hsep), List.takeWhile_cons_of_pos (by simp)]
  rw [lookup, hsplit, hhead, List.find?_cons_of_pos (by simp [paramName_append hkey]),
    Option.map_some, paramValue_append hkey, List.takeWhile_takeWhile, leading]
  simp

/-- If the first occurrence of the key begins a parameter and an `=` follows it, then what follows
that is the value. -/
theorem Opens.lookup (h : Opens query key front) (hfirst : First query key front) (hkey : 61 ∉ key)
    (hsep : 38 ∉ key) {c : UInt8} (hquery : query = front ++ key ++ c :: back) :
    lookup query key = some (leading back) := by
  obtain ⟨hfront, hopens⟩ := h
  obtain rfl : c = 61 := by
    rw [hquery] at hopens
    have hhead := (List.prefix_append_right_inj (front ++ key)).mp hopens
    exact (List.cons_prefix_cons.mp hhead).1.symm
  rcases hfront with rfl | hlast
  · rw [hquery, List.nil_append]
    exact lookup_cons hkey hsep back
  · obtain ⟨before, rfl⟩ : ∃ before, front = before ++ [38] := by
      obtain ⟨hne, hlast⟩ := List.getLast?_eq_some_iff.mp hlast
      exact ⟨hne, hlast⟩
    have hsplit : query = before ++ 38 :: (key ++ 61 :: back) := by
      rw [hquery]
      simp
    have hnone : ∀ param ∈ before.splitOn 38, ¬paramName param = key := by
      intro param hparam hname
      obtain ⟨s, t, hbefore⟩ := key_infix_of_name hparam hname
      have hearlier : s ++ key <+: query := by
        rw [hsplit, ← hbefore, List.append_assoc]
        exact List.prefix_append _ _
      have hle := hfirst.2 s hearlier
      have hlength := congrArg List.length hbefore
      simp only [List.length_append, List.length_singleton] at hle hlength
      omega
    have hrest := lookup_cons hkey hsep back
    rw [CgiStrings.lookup] at hrest ⊢
    rw [hsplit, List.splitOn_append_cons_self, List.find?_append,
      List.find?_eq_none.mpr (by simpa using hnone), Option.none_or]
    exact hrest

/-! ## The call -/

theorem strstr_of_first (h : First query key front) : strstr key query = some front.length := by
  cases hfound : strstr key query with
  | none => exact absurd h.infix (strstr_eq_none_iff.mp hfound)
  | some n =>
    obtain ⟨front', rfl, hfirst⟩ := first_of_strstr hfound
    rw [h.unique hfirst]

/-- What follows the leading text ends it. -/
theorem leading_ends (h : 0 ∉ back) : (∀ c ∈ leading back, isEnd c = false) ∧
    ∃ c rest, isEnd c = true ∧ back ++ [0] = leading back ++ c :: rest := by
  constructor
  · intro c hc
    have hne : c ≠ 0 := fun heq => h (heq ▸ (List.takeWhile_prefix _).subset hc)
    have hpass := List.mem_takeWhile_imp hc
    simp only [ne_eq, Bool.and_eq_true, decide_eq_true_eq] at hpass
    simp [isEnd, hne, hpass.1, hpass.2]
  · have hsplit := List.takeWhile_append_dropWhile (p := fun c => c ≠ 35 && c ≠ 38) (l := back)
    cases hrest : back.dropWhile (fun c => c ≠ 35 && c ≠ 38) with
    | nil =>
      rw [hrest, List.append_nil] at hsplit
      exact ⟨0, [], rfl, by rw [leading, hsplit]⟩
    | cons c rest =>
      rw [hrest] at hsplit
      have hstop := List.head?_dropWhile_not (fun c => c ≠ 35 && c ≠ 38) back
      rw [hrest] at hstop
      refine ⟨c, rest ++ [0], ?_, ?_⟩
      · simp at hstop
        by_cases h35 : c = 35
        · simp [isEnd, h35]
        · simp [isEnd, hstop h35]
      · rw [← hsplit, leading, List.append_assoc, hsplit]
        rfl

/-- The text that is copied. -/
theorem readUntil_value (hquery : query = front ++ key ++ c :: back) (h : 0 ∉ back) :
    readUntil isEnd (query ++ [0]) (front.length + key.length + 1) = .ok (leading back) := by
  obtain ⟨hpass, d, rest, hd, hsplit⟩ := leading_ends h
  have hmemory : query ++ [0] = (front ++ key ++ [c]) ++ (leading back ++ d :: rest) := by
    rw [hquery, ← hsplit]
    simp
  have hplace : front.length + key.length + 1 = (front ++ key ++ [c]).length := by
    simp only [List.length_append, List.length_singleton]
  rw [hmemory, hplace]
  exact readUntil_append hpass hd

/-- The copy of a text and of its terminator. -/
theorem copy_terminated (text buffer : Bytes) : (∃ behind, text.length < buffer.length ∧
      (copyTo text buffer 0 >>= fun b => store b text.length 0) = .ok (text ++ 0 :: behind)) ∨
    buffer.length ≤ text.length ∧
      (copyTo text buffer 0 >>= fun b => store b text.length 0) = .error .outside := by
  rcases Nat.lt_trichotomy text.length buffer.length with hlt | heq | hgt
  · left
    have hcopy := copyTo_append [] (Nat.le_of_lt hlt)
    obtain ⟨y, behind, hleft⟩ := List.exists_cons_of_length_pos
      (show 0 < (buffer.drop text.length).length by rw [List.length_drop]; omega)
    rw [hleft, List.nil_append, List.nil_append, List.length_nil] at hcopy
    refine ⟨behind, hlt, ?_⟩
    rw [hcopy, ok_bind]
    exact store_append text behind 0 y
  · right
    have hcopy := copyTo_append [] (Nat.le_of_eq heq)
    rw [heq, List.drop_length, List.append_nil, List.nil_append, List.nil_append,
      List.length_nil] at hcopy
    refine ⟨Nat.le_of_eq heq.symm, ?_⟩
    rw [hcopy, ok_bind, store, if_neg (Nat.lt_irrefl _)]
  · right
    refine ⟨Nat.le_of_lt hgt, ?_⟩
    rw [copyTo_outside (Nat.zero_le _) (by omega), error_bind]

/-- A call for a key that occurs nowhere. -/
theorem call_none (h : ¬key <:+: query) :
    queryParseKeyValue query key buffer = .ok ⟨-1, buffer, none⟩ := by
  rw [queryParseKeyValue, strstr_eq_none_iff.mpr h]

/-- A call for a key that first occurs at the end. -/
theorem call_end (buffer : Bytes) (h : First query key front) (hquery : query = front ++ key) :
    queryParseKeyValue query key buffer = .error .outside := by
  have hend : (query ++ [0]).length ≤ front.length + key.length + 1 := by
    rw [hquery, List.length_append, List.length_append, List.length_singleton]
  rw [queryParseKeyValue, strstr_of_first h]
  simp only [readUntil_outside hend, error_bind]

/-- A call for a key that something follows. -/
theorem call_found (buffer : Bytes) (h : First query key front)
    (hquery : query = front ++ key ++ c :: back)
    (hzero : 0 ∉ back) : queryParseKeyValue query key buffer =
      (copyTo (leading back) buffer 0 >>= fun b => store b (leading back).length 0) >>= fun b =>
        .ok ⟨0, b, some (leading back).length⟩ := by
  rw [queryParseKeyValue, strstr_of_first h]
  simp only [readUntil_value hquery hzero, ok_bind, bind_assoc]

theorem eq_of_terminated {text value behind behind' : Bytes} (hlength : text.length = value.length)
    (h : text ++ 0 :: behind = value ++ 0 :: behind') : text = value :=
  (List.append_inj h hlength).1

/-- When something follows the key, the call serves if that is the value, and has its place. -/
theorem serves_found_iff (h : First query key front) (hquery : query = front ++ key ++ c :: back)
    (hzero : 0 ∉ back) : Serves query key buffer ↔
      (leading back).length < buffer.length ∧ lookup query key = some (leading back) := by
  have hcall := call_found buffer h hquery hzero
  unfold Serves
  obtain ⟨behind, hlt, hcopy⟩ | ⟨hle, hcopy⟩ := copy_terminated (leading back) buffer
  · rw [hcopy, ok_bind] at hcall
    rw [hcall, and_iff_right hlt]
    cases hlookup : lookup query key with
    | none => simp
    | some value =>
      constructor
      · rintro ⟨behind', heq⟩
        obtain ⟨-, htext, hlength⟩ := Parsed.mk.inj (Except.ok.inj heq)
        rw [eq_of_terminated (Option.some.inj hlength) htext]
      · intro hvalue
        rw [Option.some.inj hvalue]
        exact ⟨behind, rfl⟩
  · rw [hcopy, error_bind] at hcall
    rw [hcall]
    refine iff_of_false ?_ (fun hboth => absurd hboth.1 (Nat.not_lt.mpr hle))
    cases hlookup : lookup query key with
    | none => simp
    | some value => simp

/-- The key of the CGI programs. -/
def cmdKey : Bytes := [99, 109, 100]

/-- `xcmd=1&cmd=2` -/
def otherName : Bytes := [120, 99, 109, 100, 61, 49, 38, 99, 109, 100, 61, 50]

/-- `cmd=` and 20 characters. -/
def longValue : Bytes := [99, 109, 100, 61] ++ List.replicate 20 97

end CServer.CgiStrings
