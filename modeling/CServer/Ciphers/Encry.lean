import Mathlib.Algebra.Group.Nat.Defs
import Mathlib.Data.List.TakeWhile
import Mathlib.Data.Nat.Basic
import Mathlib.Tactic.Cases

/-!
# The file cipher of encry.c

`dofile` reads a file in chunks and changes those that start up to a limit: each byte is combined
with the next one of the password, which starts anew where it ends. The chunks behind the limit are
copied. The limit is computed in double precision.
-/
namespace CServer.Encry

def maxLine : ℕ := 4096

/-- `MAX1` and `MAX2`. -/
def max1 : ℕ := 2 <<< 15
def max2 : ℕ := 2 <<< 25

/-- A password, without its terminator. -/
structure Password where
  chars : List UInt8
  visible : 0 ∉ chars

/-- `pw[j]`. -/
def Password.at (pw : Password) (j : ℕ) : UInt8 := pw.chars.getD j 0

/-! ## The limit -/

/-- A number in double precision: 53 binary digits, and of two numbers that are as near the one with
an even last digit. -/
def double (n : ℕ) : ℕ :=
  let unit := 2 ^ (n.log2 + 1 - 53)
  let q := n / unit
  let r := n % unit
  if 2 * r < unit ∨ (2 * r = unit ∧ q % 2 = 0) then q * unit else (q + 1) * unit

/-- `0.1` is this number of units of `2 ^ -55`. -/
def tenth : ℕ := 3602879701896397

/-- `0.1 * len`, in units of `2 ^ -55`. -/
def tenthOf (len : ℕ) : ℕ := double (tenth * double len)

/-- The limit of a file with so many bytes. -/
def maxlen (len : ℕ) : ℕ :=
  if tenthOf len < max1 * 2 ^ 55 then max1
  else if max1 * 2 ^ 55 ≤ tenthOf len ∧ tenthOf len ≤ max2 * 2 ^ 55 then tenthOf len / 2 ^ 55
  else max2

/-! ## The loops -/

/-- `while (pw[j0]) j0++`. -/
def passwordLength (pw : Password) : ℕ := (pw.chars.takeWhile (· ≠ 0)).length

/-- The loop over the bytes of a chunk, with the value of `j` behind it. -/
def combine (pw : Password) (j0 : ℕ) : ℕ → List UInt8 → List UInt8 × ℕ
  | j, [] => ([], j)
  | j, byte :: str =>
    let j := if j ≥ j0 then 0 else j
    let rest := combine pw j0 (j + 1) str
    ((byte ^^^ pw.at j) :: rest.1, rest.2)

/-- What is written for the bytes that are left. `fread` has found the end of the file if it gives
less than was asked for. -/
def copyFile (pw : Password) (j0 limit : ℕ) (file : List UInt8) (sublen j : ℕ) : List UInt8 :=
  let str := file.take maxLine
  if str.length = 0 then []
  else
    let coded := if sublen ≤ limit then combine pw j0 j str else (str, j)
    if _h : str.length < maxLine then coded.1
    else coded.1 ++ copyFile pw j0 limit (file.drop maxLine) (sublen + str.length) coded.2
termination_by file.length
decreasing_by
  simp only [List.length_take, maxLine, str] at _h ⊢
  rw [List.length_drop]
  omega

/-- `dofile`: what the output file holds at the end. -/
def dofile (file : List UInt8) (pw : Password) : List UInt8 :=
  copyFile pw (passwordLength pw) (maxlen file.length) file 0 0

/-! ## What is written -/

theorem passwordLength_eq (pw : Password) : passwordLength pw = pw.chars.length := by
  have hall : ∀ c ∈ pw.chars, c ≠ 0 := by
    rintro c hc rfl
    exact pw.visible hc
  unfold passwordLength
  rw [List.takeWhile_eq_self_iff.2 (by simpa using hall)]

/-- The byte of the password that belongs to a place of the file. With the empty password it is the
terminator. -/
def Password.key (pw : Password) (place : ℕ) : UInt8 := pw.at (place % pw.chars.length)

/-- What becomes of the byte at a place: a chunk is changed if it starts up to the limit. -/
def codedByte (pw : Password) (limit place : ℕ) (byte : UInt8) : UInt8 :=
  if maxLine * (place / maxLine) ≤ limit then byte ^^^ pw.key place else byte

variable {pw : Password} {file str : List UInt8} {limit sublen place i j n : ℕ} {byte : UInt8}

/-- The value of `j` with which the byte at a place is reached. -/
def InStep (n j place : ℕ) : Prop := n = 0 ∨ (if j ≥ n then 0 else j) = place % n

theorem inStep_zero : InStep n 0 0 := by
  refine Or.inr ?_
  rw [Nat.zero_mod, ite_self]

theorem InStep.next (h : InStep n j place) : InStep n ((if j ≥ n then 0 else j) + 1) (place + 1) := by
  obtain hn | h := h
  · exact Or.inl hn
  by_cases hn : n = 0
  · exact Or.inl hn
  refine Or.inr ?_
  have hmod : (place + 1) % n = (place % n + 1) % n := (Nat.mod_add_mod place n 1).symm
  rw [h, hmod]
  have hlt := Nat.mod_lt place (Nat.pos_of_ne_zero hn)
  by_cases hlast : place % n + 1 = n
  · rw [hlast, if_pos (le_refl n), Nat.mod_self]
  · rw [if_neg (by omega)]
    exact (Nat.mod_eq_of_lt (by omega)).symm

theorem InStep.at_eq (h : InStep pw.chars.length j place) :
    pw.at (if j ≥ pw.chars.length then 0 else j) = pw.key place := by
  unfold Password.key
  obtain hn | h := h
  · have hnil : pw.chars = [] := List.length_eq_zero_iff.1 hn
    unfold Password.at
    rw [hnil]
    rfl
  · rw [h]

/-- The loop over a chunk takes up the password where it was left. -/
theorem combine_spec (h : InStep pw.chars.length j place) :
    (combine pw pw.chars.length j str).1 = str.mapIdx (fun k b => b ^^^ pw.key (place + k)) ∧
      InStep pw.chars.length (combine pw pw.chars.length j str).2 (place + str.length) := by
  induction str generalizing j place with
  | nil => exact ⟨rfl, h⟩
  | cons byte str ih =>
    obtain ⟨hbytes, hstep⟩ := ih h.next
    rw [List.mapIdx_cons]
    refine ⟨?_, ?_⟩
    · show (byte ^^^ pw.at (if j ≥ pw.chars.length then 0 else j)) :: _ = _
      rw [hbytes, h.at_eq]
      refine congrArg _ (congrArg (List.mapIdx · str) ?_)
      ext k b
      rw [add_assoc, add_comm 1 k]
    · rw [List.length_cons, Nat.add_comm str.length 1, ← Nat.add_assoc]
      exact hstep

/-- What is written for one chunk, and the value of `j` for the next one that is changed. -/
theorem chunk_spec (hlength : str.length ≤ maxLine)
    (h : maxLine * i ≤ limit → InStep pw.chars.length j (maxLine * i)) :
    let coded := if maxLine * i ≤ limit then combine pw pw.chars.length j str else (str, j)
    coded.1 = str.mapIdx (fun k b => codedByte pw limit (maxLine * i + k) b) ∧
      (maxLine * i ≤ limit → InStep pw.chars.length coded.2 (maxLine * i + str.length)) := by
  have hstart : ∀ k < str.length, maxLine * ((maxLine * i + k) / maxLine) = maxLine * i := by
    intro k hk
    rw [Nat.mul_add_div (by decide), Nat.div_eq_of_lt (by omega), Nat.add_zero]
  by_cases hlimit : maxLine * i ≤ limit
  · rw [if_pos hlimit]
    obtain ⟨hbytes, hstep⟩ := combine_spec (h hlimit)
    refine ⟨?_, fun _ => hstep⟩
    rw [hbytes, List.mapIdx_eq_mapIdx_iff]
    intro k hk
    unfold codedByte
    rw [hstart k hk, if_pos hlimit]
  · rw [if_neg hlimit]
    refine ⟨?_, fun hle => absurd hle hlimit⟩
    ext1 k
    rw [List.getElem?_mapIdx]
    cases hk : str[k]? with
    | none => rfl
    | some b =>
      have hlt := (List.getElem?_eq_some_iff.1 hk).1
      unfold codedByte
      rw [Option.map_some, hstart k hlt, if_neg hlimit]

/-- From the start of a chunk on, each byte is written as its place in the file says. -/
theorem copyFile_eq (h : maxLine * i ≤ limit → InStep pw.chars.length j (maxLine * i)) :
    copyFile pw pw.chars.length limit file (maxLine * i) j =
      file.mapIdx fun k b => codedByte pw limit (maxLine * i + k) b := by
  obtain ⟨length, hlength⟩ : ∃ length, file.length = length := ⟨_, rfl⟩
  induction length using Nat.strong_induction_on generalizing file i j with
  | _ length ih =>
    have hle : (file.take maxLine).length ≤ maxLine := List.length_take_le ..
    obtain ⟨hbytes, hstep⟩ := chunk_spec hle h
    unfold copyFile
    have htake : (file.take maxLine).length = min maxLine file.length := List.length_take
    by_cases hempty : (file.take maxLine).length = 0
    · have hnil : file.length = 0 := by
        rw [htake] at hempty
        exact (Nat.min_eq_zero_iff.1 hempty).resolve_left (by decide)
      rw [if_pos hempty, List.length_eq_zero_iff.1 hnil]
      rfl
    rw [if_neg hempty]
    by_cases hshort : (file.take maxLine).length < maxLine
    · have hwhole : file.take maxLine = file := List.take_of_length_le (by omega)
      rw [dif_pos hshort, hbytes, hwhole]
    · have hfull : (file.take maxLine).length = maxLine :=
        Nat.le_antisymm hle (Nat.le_of_not_lt hshort)
      have hnext : maxLine * i + maxLine = maxLine * (i + 1) := rfl
      rw [hfull, hnext] at hstep
      have hrest : maxLine * (i + 1) ≤ limit → InStep pw.chars.length
          (if maxLine * i ≤ limit then combine pw pw.chars.length j (file.take maxLine)
            else (file.take maxLine, j)).2 (maxLine * (i + 1)) :=
        fun hlimit => hstep ((Nat.le_add_right ..).trans hlimit)
      rw [dif_neg hshort, hbytes, hfull, hnext, ih _ (by rw [List.length_drop]; omega) hrest rfl]
      have hsplit := congrArg (List.mapIdx fun k b => codedByte pw limit (maxLine * i + k) b)
        (List.take_append_drop maxLine file)
      rw [List.mapIdx_append, hfull] at hsplit
      rw [← hsplit]
      refine congrArg _ (congrArg (List.mapIdx · (file.drop maxLine)) ?_)
      ext k b
      rw [Nat.mul_succ, Nat.add_assoc, Nat.add_comm maxLine k]

/-- What the output file holds. -/
theorem dofile_eq (file : List UInt8) (pw : Password) :
    dofile file pw = file.mapIdx (codedByte pw (maxlen file.length)) := by
  unfold dofile
  rw [passwordLength_eq]
  have hwhole : copyFile pw pw.chars.length (maxlen file.length) file (maxLine * 0) 0 = _ :=
    copyFile_eq fun _ => inStep_zero
  rw [Nat.mul_zero] at hwhole
  rw [hwhole]
  refine congrArg (List.mapIdx · file) ?_
  ext k b
  rw [Nat.zero_add]

/-- Coding a byte twice gives it back. -/
theorem codedByte_codedByte (pw : Password) (limit place : ℕ) (byte : UInt8) :
    codedByte pw limit place (codedByte pw limit place byte) = byte := by
  unfold codedByte
  split_ifs
  · rw [UInt8.xor_assoc, UInt8.xor_self, UInt8.xor_zero]
  · rfl

/-- The second run undoes the first, and one run changes the bytes of the chunks that start up to the
limit, each by the byte of the password at its place. -/
theorem dofile_involutive (file : List UInt8) (pw : Password) :
    dofile (dofile file pw) pw = file ∧ (dofile file pw).length = file.length ∧
      ∀ place, (dofile file pw)[place]? = file[place]?.map fun byte =>
        if maxLine * (place / maxLine) ≤ maxlen file.length then
          byte ^^^ pw.at (place % pw.chars.length) else byte := by
  have hlength : (dofile file pw).length = file.length := by
    rw [dofile_eq, List.length_mapIdx]
  refine ⟨?_, hlength, fun place => ?_⟩
  · rw [dofile_eq (dofile file pw), hlength, dofile_eq file, List.mapIdx_mapIdx]
    ext1 place
    rw [List.getElem?_mapIdx]
    cases file[place]? with
    | none => rfl
    | some byte => exact congrArg some (codedByte_codedByte ..)
  · rw [dofile_eq, List.getElem?_mapIdx]
    rfl

end CServer.Encry
