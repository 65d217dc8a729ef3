import CServer.Dns.Model

/-!
# The names in a buffer

`NameAt` says which text `dns_parse_name` finds at an offset, if it finds one. The function returns it
when it fits into the array, and returns nothing else.
-/
namespace CServer.Dns

variable {chunk out out' name : List UInt8} {ptr stop turns : ℕ}

theorem read_eq_ok {n : ℕ} : read chunk ptr = .ok n ↔ ∃ byte, chunk[ptr]? = some byte ∧ byte.toNat = n := by
  rw [read]
  cases chunk[ptr]? <;> simp

theorem read_of {byte : UInt8} (h : chunk[ptr]? = some byte) : read chunk ptr = .ok byte.toNat :=
  read_eq_ok.mpr ⟨byte, h, rfl⟩

theorem copy_eq_ok {n : ℕ} : copy chunk ptr n = .ok out ↔
    ptr + n ≤ chunk.length ∧ (chunk.drop ptr).take n = out := by
  rw [copy]
  split
  · simp_all
  · rename_i hnot
    simp [hnot]

theorem store_eq_ok {bytes : List UInt8} : store out bytes = .ok out' ↔
    out.length + bytes.length ≤ nameLength ∧ out ++ bytes = out' := by
  rw [store]
  split
  · simp_all
  · rename_i hnot
    simp [hnot]

/-- What stands between a label and the byte behind it. -/
def separator (next : UInt8) : List UInt8 := if next = 0 then [] else ['.'.toUInt8]

theorem storeDot_eq_ok {next : UInt8} (hout : out.length ≤ nameLength) :
    storeDot out next.toNat = .ok out' ↔
      (out ++ separator next).length ≤ nameLength ∧ out ++ separator next = out' := by
  rw [storeDot, separator]
  by_cases hzero : next = 0
  · subst hzero
    simp [hout]
  · have hzero' : next.toNat ≠ 0 := by simpa [← UInt8.toNat_inj] using hzero
    rw [if_pos hzero', if_neg hzero, store_eq_ok, List.length_append]

/-- The text of the name at an offset: labels up to a zero byte, and the pointers followed by their
second byte. -/
inductive NameAt (chunk : List UInt8) : ℕ → List UInt8 → Prop where
  | root {ptr : ℕ} (hflag : chunk[ptr]? = some 0) : NameAt chunk ptr []
  | pointer {ptr : ℕ} {flag n : UInt8} {name : List UInt8} (hflag : chunk[ptr]? = some flag)
      (hpointer : isPointer flag.toNat = true) (hn : chunk[ptr + 1]? = some n)
      (target : NameAt chunk n.toNat name) : NameAt chunk ptr name
  | label {ptr : ℕ} {flag next : UInt8} {name : List UInt8} (hflag : chunk[ptr]? = some flag)
      (hsome : flag ≠ 0) (hlabel : isPointer flag.toNat = false)
      (hnext : chunk[ptr + 1 + flag.toNat]? = some next) (rest : NameAt chunk (ptr + 1 + flag.toNat) name) :
      NameAt chunk ptr ((chunk.drop (ptr + 1)).take flag.toNat ++ separator next ++ name)

/-- The turn at a pointer. -/
theorem parseName_pointer {flag n : UInt8} (hflag : chunk[ptr]? = some flag)
    (hpointer : isPointer flag.toNat = true) (hn : chunk[ptr + 1]? = some n) :
    dnsParseName chunk (turns + 1) ptr out = dnsParseName chunk turns n.toNat out := by
  have hsome : flag.toNat ≠ 0 := by
    intro hzero
    rw [hzero] at hpointer
    exact absurd hpointer (by decide)
  rw [dnsParseName, read_of hflag, ok_bind, if_neg hsome, if_pos hpointer, read_of hn, ok_bind]

/-- The length of a label is that of its bytes in the buffer. -/
theorem length_label {flag next : UInt8} (hnext : chunk[ptr + 1 + flag.toNat]? = some next) :
    ptr + 1 + flag.toNat ≤ chunk.length ∧ ((chunk.drop (ptr + 1)).take flag.toNat).length = flag.toNat := by
  obtain ⟨hlt, -⟩ := List.getElem?_eq_some_iff.mp hnext
  refine ⟨by omega, ?_⟩
  rw [List.length_take, List.length_drop]
  omega

/-- The turn at a label. -/
theorem parseName_label {flag next : UInt8} (hflag : chunk[ptr]? = some flag) (hsome : flag ≠ 0)
    (hlabel : isPointer flag.toNat = false) (hnext : chunk[ptr + 1 + flag.toNat]? = some next)
    (hfits : (out ++ ((chunk.drop (ptr + 1)).take flag.toNat ++ separator next)).length ≤ nameLength) :
    dnsParseName chunk (turns + 1) ptr out = dnsParseName chunk turns (ptr + 1 + flag.toNat)
      (out ++ ((chunk.drop (ptr + 1)).take flag.toNat ++ separator next)) := by
  obtain ⟨hinside, -⟩ := length_label hnext
  have hflag' : flag.toNat ≠ 0 := by simpa [← UInt8.toNat_inj] using hsome
  rw [List.length_append, List.length_append] at hfits
  have hcopy := copy_eq_ok.mpr ⟨hinside, rfl⟩
  have hstore := store_eq_ok.mpr (⟨by omega, rfl⟩ :
    out.length + ((chunk.drop (ptr + 1)).take flag.toNat).length ≤ nameLength ∧ out ++ _ = _)
  rw [dnsParseName, read_of hflag, ok_bind, if_neg hflag', hlabel, if_neg (by simp), hcopy, ok_bind, hstore,
    ok_bind, read_of hnext, ok_bind]
  rw [(storeDot_eq_ok ?_).mpr ⟨?_, rfl⟩, ok_bind, List.append_assoc]
  · rw [List.length_append]
    omega
  · rw [List.length_append, List.length_append]
    omega

/-- A name that fits is returned. -/
theorem NameAt.returns (h : NameAt chunk ptr name) (hfits : (out ++ name).length ≤ nameLength) :
    Returns (fun turns => dnsParseName chunk turns ptr out) (out ++ name) := by
  induction h generalizing out with
  | root hflag =>
    refine .of_succ fun turns => ?_
    rw [dnsParseName, read_of hflag, ok_bind, List.append_nil]
    rfl
  | pointer hflag hpointer hn _ ih => exact (ih hfits).succ fun turns => parseName_pointer hflag hpointer hn
  | @label ptr flag next name hflag hsome hlabel hnext _ ih =>
    rw [← List.append_assoc] at hfits ⊢
    refine (ih hfits).succ fun turns => parseName_label hflag hsome hlabel hnext ?_
    rw [List.length_append] at hfits
    omega

/-- What is returned is the name. -/
theorem nameAt_of_parseName (h : dnsParseName chunk turns ptr out = .ok out')
    (hout : out.length ≤ nameLength) :
    ∃ name, NameAt chunk ptr name ∧ out ++ name = out' ∧ (out ++ name).length ≤ nameLength := by
  induction turns generalizing ptr out with
  | zero => exact absurd h (by simp [dnsParseName])
  | succ turns ih =>
    rw [dnsParseName] at h
    obtain ⟨flag, hread, h⟩ := bind_eq_ok h
    obtain ⟨flag, hflag, rfl⟩ := read_eq_ok.mp hread
    split at h
    · rename_i hzero
      have hroot : flag = 0 := by simpa [← UInt8.toNat_inj] using hzero
      subst hroot
      refine ⟨[], .root hflag, ?_, ?_⟩
      · rw [List.append_nil]
        exact Except.ok.inj h
      · rw [List.append_nil]
        exact hout
    · rename_i hsome
      have hsome' : flag ≠ 0 := by simpa [← UInt8.toNat_inj] using hsome
      split at h
      · rename_i hpointer
        obtain ⟨n, hread, h⟩ := bind_eq_ok h
        obtain ⟨n, hn, rfl⟩ := read_eq_ok.mp hread
        obtain ⟨name, target, hname⟩ := ih h hout
        exact ⟨name, .pointer hflag hpointer hn target, hname⟩
      · rename_i hlabel
        obtain ⟨label, hcopy, h⟩ := bind_eq_ok h
        obtain ⟨out₁, hstore, h⟩ := bind_eq_ok h
        obtain ⟨next, hread, h⟩ := bind_eq_ok h
        obtain ⟨out₂, hdot, h⟩ := bind_eq_ok h
        obtain ⟨-, rfl⟩ := copy_eq_ok.mp hcopy
        obtain ⟨hlabelFits, rfl⟩ := store_eq_ok.mp hstore
        obtain ⟨next, hnext, rfl⟩ := read_eq_ok.mp hread
        rw [← List.length_append] at hlabelFits
        obtain ⟨hfits, rfl⟩ := (storeDot_eq_ok hlabelFits).mp hdot
        obtain ⟨name, rest, hname, hlength⟩ := ih h hfits
        refine ⟨_, .label hflag hsome' (by simpa using hlabel) hnext rest, ?_, ?_⟩
        · simpa only [List.append_assoc] using hname
        · simpa only [List.append_assoc] using hlength

end CServer.Dns
