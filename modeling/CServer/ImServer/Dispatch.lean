import CServer.ImServer.Streams
import Mathlib.Algebra.Order.Group.Int
import Mathlib.Tactic.NormNum

/-!
# Well-formed streams

A stream of PDUs whose length fields give their sizes, received in any pieces: each PDU is handled
when its last byte has arrived.
-/
namespace CServer.ImServer

variable {size n : ℕ} {p front pending : Bytes} {commandId : ℕ} {whole results : List Bytes}

/-- The length field of a PDU gives its size, and a header has its place in it. -/
def WellFormed (p : Bytes) : Prop := readUint32 p 0 = p.length ∧ imPduHeaderLen ≤ p.length

/-- A difference is taken modulo `m`, and only then as a signed value. -/
theorem bmod_sub {k m : ℕ} (h : k ≤ m) :
    Int.bmod (((n + m - k) % m : ℕ) : ℤ) m = Int.bmod (n - k) m := by
  have hcast : ((n + m - k : ℕ) : ℤ) = n - k + m := by omega
  rw [Int.natCast_mod, hcast, Int.emod_bmod, Int.add_bmod_right]

/-- The size of a body is handed on as it is, up to the largest value of the type `int`. -/
theorem bodySize_eq_iff (h : n < 2 ^ 32) :
    toInt (subUint32 n imPduHeaderLen) = n - 16 ↔ n < 2 ^ 31 + 16 := by
  have hwrap : toInt (subUint32 n imPduHeaderLen) = Int.bmod (n - (16 : ℕ)) (2 ^ 32) :=
    bmod_sub (by decide)
  rw [hwrap]
  constructor
  · intro heq
    have hlt := Int.bmod_lt (x := (n : ℤ) - (16 : ℕ)) (m := 2 ^ 32) (by decide)
    rw [heq] at hlt
    omega
  · intro hlt
    exact Int.bmod_eq_of_le (by omega) (by omega)

theorem WellFormed.next (h : WellFormed p) :
    pdus.next p = some (turnOf p (readUint16 p 10), p.length) := by
  obtain ⟨hlength, hheader⟩ := h
  have hpos : 0 < p.length := Nat.lt_of_lt_of_le (by decide) hheader
  show nextPdu p = _
  rw [nextPdu, hlength, if_pos ⟨hheader, hpos, Nat.le_refl _⟩, List.take_length]

/-- A proper part of a PDU is not one, and does not look like one of length 0. -/
theorem WellFormed.part (h : WellFormed p) (hfront : front <+: p)
    (hlt : front.length < p.length) : pdus.next front = none ∧ ¬ZeroLength front := by
  obtain ⟨more, rfl⟩ := hfront
  obtain ⟨hlength, hheader⟩ := h
  by_cases hwhole : imPduHeaderLen ≤ front.length
  · rw [readUint32_append hwhole] at hlength
    refine ⟨if_neg fun hnext => ?_, fun hzero => ?_⟩
    · rw [hlength] at hnext
      exact absurd hnext.2.2 (Nat.not_le_of_lt hlt)
    · rw [← hlength, hzero.2] at hlt
      exact absurd hlt (Nat.not_lt_zero _)
  · exact ⟨if_neg fun hnext => hwhole hnext.1, fun hzero => hwhole hzero.1⟩

theorem not_zeroLength_nil : ¬ZeroLength [] := by decide

theorem turnOf_body (hheader : imPduHeaderLen ≤ p.length) (h : p.length < 2 ^ 31) :
    (turnOf p commandId).body = p.drop imPduHeaderLen := by
  have hsize : (turnOf p commandId).bodySize = p.length - 16 := by
    have hsmall : p.length < 2 ^ 32 := by omega
    rw [turnOf_bodySize, bodySize_eq_iff hsmall]
    omega
  have hpdu : (turnOf p commandId).pdu = p := rfl
  rw [imPduHeaderLen] at hheader ⊢
  rw [Turn.body, hsize, hpdu]
  refine List.take_of_length_le ?_
  rw [List.length_drop, imPduHeaderLen]
  omega

/-- A buffer for less than 2 GiB always has its size. -/
theorem roomy_of_lt (hsize : size < 2 ^ 32) (h : (pending ++ results.flatten).length < 2 ^ 31) :
    Roomy size pending results := by
  induction results generalizing size pending with
  | nil => trivial
  | cons received results ih =>
    rw [List.flatten_cons, ← List.append_assoc] at h
    have hroom : room size pending.length < 2 ^ 32 := by
      simp only [List.length_append] at h
      rw [room, grown, readBufSize]
      split <;> omega
    refine ⟨hroom, ih hroom ?_⟩
    have hrest := Framing.length_rest_le (F := pdus) (pending ++ received)
    rw [List.length_append] at h ⊢
    omega

theorem length_lt_of_mem (hmem : p ∈ whole) (h : whole.flatten.length < 2 ^ 31) :
    p.length < 2 ^ 31 := by
  obtain ⟨before, behind, rfl⟩ := List.append_of_mem hmem
  simp only [List.flatten_append, List.flatten_cons, List.length_append] at h
  omega

/-- A PDU of 16 bytes with the command 0x0103. -/
def emptyLogin : Bytes := [0, 0, 0, 16, 0, 1, 0, 0, 0, 1, 1, 3, 0, 0, 0, 0]

end CServer.ImServer
