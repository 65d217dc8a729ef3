import CServer.Foundation.Fallible
import CServer.Des.UninitialisedKey

/-!
# The round trip through `DesEnc` and `DesDec`

With 64-bit longs no text comes back whatever the local arrays held: some contents change the
padding byte, and with it the length that `DesDec` returns.
-/
namespace CServer.Des

/-- `DesEnc` succeeds with some blocks, and `DesDec` makes the text of them again. -/
def RoundTrip (encUninit decUninit : ℕ → ℕ → BitVec 64) (x : Bytes) : Prop :=
  ∃ out, desEnc encUninit x = .ok out ∧ 0 < out.length ∧ 8 ∣ out.length ∧
    desDec decUninit out = .ok x

theorem length_unscrun {w : ℕ} (block : BitVec w × BitVec w) : (unscrun block).length = 8 := rfl

/-- The blocks but the last, and the last one. -/
theorem cryptBlocks_succ {raw : (ℕ → BitVec 64) → Bytes → Except Failure Bytes}
    {uninit : ℕ → ℕ → BitVec 64} {inData : Bytes} (loops i : ℕ) :
    cryptBlocks raw uninit inData (loops + 1) i = (do
      let before ← cryptBlocks raw uninit inData loops i
      let last ← raw (uninit (i + loops)) ((inData.drop (8 * (i + loops))).take 8)
      .ok (before ++ last)) := by
  induction loops generalizing i with
  | zero =>
    simp only [cryptBlocks, ok_bind, Nat.add_zero, List.nil_append, List.append_nil]
  | succ loops ih =>
    rw [cryptBlocks, ih (i + 1), cryptBlocks]
    have hshift : i + 1 + loops = i + (loops + 1) := by omega
    rw [hshift]
    cases raw (uninit i) ((inData.drop (8 * i)).take 8) with
    | error e => rfl
    | ok block =>
      rw [ok_bind, ok_bind]
      cases cryptBlocks raw uninit inData loops (i + 1) with
      | error e => rfl
      | ok rest =>
        rw [ok_bind, ok_bind, ok_bind]
        cases raw (uninit (i + (loops + 1))) ((inData.drop (8 * (i + (loops + 1)))).take 8) with
        | error e => rfl
        | ok last => rw [ok_bind, ok_bind, ok_bind, List.append_assoc]

/-- Whole blocks are decrypted, the earlier ones whatever the contents at the last one. -/
theorem cryptBlocks_ok (key : List (BitVec 64)) (inData : Bytes) (loops : ℕ)
    (h : 8 * loops ≤ inData.length) (uninit : ℕ → ℕ → BitVec 64) :
    ∃ out, cryptBlocks (desDecRaw key desKeyBytes) uninit inData loops 0 = .ok out ∧
      out.length = 8 * loops ∧
      ∀ uninit' : ℕ → ℕ → BitVec 64, (∀ i < loops, uninit' i = uninit i) →
        cryptBlocks (desDecRaw key desKeyBytes) uninit' inData loops 0 = .ok out := by
  induction loops with
  | zero => exact ⟨[], rfl, rfl, fun _ _ => rfl⟩
  | succ loops ih =>
    obtain ⟨out, hout, hlen, hsame⟩ := ih (by omega)
    have hblock : ((inData.drop (8 * loops)).take 8).length = 8 := by
      rw [List.length_take, List.length_drop]
      omega
    refine ⟨out ++ unscrun (desfunc (scrunch ((inData.drop (8 * loops)).take 8))
      (localKey key (uninit loops))), ?_, ?_, ?_⟩
    · rw [cryptBlocks_succ, hout, ok_bind, Nat.zero_add, desDecRaw, desRaw_eq _ _ hblock, ok_bind]
    · rw [List.length_append, hlen, length_unscrun]
      omega
    · intro uninit' huninit
      rw [cryptBlocks_succ, hsame uninit' (fun i hi => huninit i (by omega)), ok_bind,
        Nat.zero_add, huninit loops (by omega), desDecRaw, desRaw_eq _ _ hblock, ok_bind]

/-- Two contents of the local array at the last block make the last bytes of the plain text
different. -/
theorem exists_lastByte_ne {inData : Bytes} (hpos : 0 < inData.length) (hdvd : 8 ∣ inData.length) :
    ∃ uninit uninit' : ℕ → ℕ → BitVec 64, ∃ plain plain' : Bytes, ∃ last last' : UInt8,
      myicDESDecrypt uninit userPasswordKey inData = .ok (plain ++ [last]) ∧
      myicDESDecrypt uninit' userPasswordKey inData = .ok (plain' ++ [last']) ∧
      plain.length = plain'.length ∧ last ≠ last' := by
  obtain ⟨blocks, hblocks⟩ := hdvd
  obtain ⟨loops, rfl⟩ : ∃ loops, blocks = loops + 1 := ⟨blocks - 1, by omega⟩
  set key : List (BitVec 64) := copied (cookey (deskey userPasswordKey .de1)) with hkey
  set block := (inData.drop (8 * loops)).take 8 with hblock
  obtain ⟨u, u', hne⟩ := exists_differing (scrunch block) key
  obtain ⟨out, hout, -, hsame⟩ := cryptBlocks_ok key inData loops
    (by omega) (fun _ _ => 0)
  have hlen : block.length = 8 := by
    rw [hblock, List.length_take, List.length_drop]
    omega
  have run : ∀ v : ℕ → BitVec 64,
      myicDESDecrypt (fun i => if i = loops then v else fun _ => 0) userPasswordKey inData =
        .ok (out ++ unscrun (desfunc (scrunch block) (localKey key v))) := by
    intro v
    have hmod : ¬ inData.length % 8 ≠ 0 := by omega
    have hdiv : inData.length / 8 = loops + 1 := by omega
    have hexpand : (desExpandDecKey userPasswordKey : Except Failure (List (BitVec 64) × ℕ)) =
        .ok (key, desKeyBytes) := rfl
    have huninit : ∀ i < loops,
        (fun i => if i = loops then v else fun _ => 0) i = (fun _ _ => 0 : ℕ → ℕ → BitVec 64) i := by
      intro i hi
      exact if_neg (by omega)
    rw [myicDESDecrypt, if_neg hmod, if_neg (by decide), hexpand, ok_bind, hdiv, cryptBlocks_succ,
      hsame _ huninit, ok_bind, Nat.zero_add, if_pos rfl, ← hblock, desDecRaw,
      desRaw_eq _ _ hlen, ok_bind]
  have split : ∀ halves : BitVec 64 × BitVec 64, ∃ init : Bytes,
      unscrun halves = init ++ [lowByte halves.2] ∧ init.length = 7 :=
    fun halves => ⟨unscrunWord halves.1 ++ [lowByte (halves.2 >>> 24), lowByte (halves.2 >>> 16),
      lowByte (halves.2 >>> 8)], rfl, rfl⟩
  obtain ⟨init, hinit, hinitlen⟩ := split (desfunc (scrunch block) (localKey key u))
  obtain ⟨init', hinit', hinitlen'⟩ := split (desfunc (scrunch block) (localKey key u'))
  refine ⟨fun i => if i = loops then u else fun _ => 0,
    fun i => if i = loops then u' else fun _ => 0,
    out ++ init, out ++ init', _, _, ?_, ?_, ?_, hne⟩
  · rw [run u, hinit, List.append_assoc]
  · rw [run u', hinit', List.append_assoc]
  · rw [List.length_append, List.length_append, hinitlen, hinitlen']

/-- The pad characters that `DesDec` takes. -/
theorem padChar_toNat {padChar : UInt8}
    (h : ¬ (padChar.toBitVec.toInt ≤ 0 ∨ padChar.toBitVec.toInt > 8)) : padChar.toNat ≤ 8 := by
  have hlt := padChar.toNat_lt
  have heq : padChar.toBitVec.toNat = padChar.toNat := rfl
  rw [BitVec.toInt_eq_toNat_cond, heq] at h
  split at h <;> omega

/-- A text that comes back says how much padding there was. -/
theorem length_of_desDec {uninit : ℕ → ℕ → BitVec 64} {inData plain x : Bytes} {last : UInt8}
    (hplain : myicDESDecrypt uninit userPasswordKey inData = .ok (plain ++ [last]))
    (hx : desDec uninit inData = .ok x) :
    last.toNat ≤ 8 ∧ x.length = plain.length + 1 - last.toNat := by
  rw [desDec, hplain, ok_bind] at hx
  simp only [List.getLast?_concat] at hx
  split at hx
  · exact absurd hx (by simp)
  · rename_i hpad
    rw [← Except.ok.inj hx]
    refine ⟨padChar_toNat hpad, ?_⟩
    simp only [List.length_take, List.length_append, List.length_singleton]
    omega

theorem length_myicDESDecrypt {uninit : ℕ → ℕ → BitVec 64} {inData plain : Bytes} {last : UInt8}
    (hdvd : 8 ∣ inData.length)
    (hplain : myicDESDecrypt uninit userPasswordKey inData = .ok (plain ++ [last])) :
    8 ≤ plain.length + 1 := by
  have hexpand : (desExpandDecKey userPasswordKey : Except Failure (List (BitVec 64) × ℕ)) =
      .ok (copied (cookey (deskey userPasswordKey .de1)), desKeyBytes) := rfl
  obtain ⟨out, hout, hlen, -⟩ :=
    cryptBlocks_ok (copied (cookey (deskey userPasswordKey .de1))) inData (inData.length / 8)
      (by omega) uninit
  rw [myicDESDecrypt, if_neg (by omega), if_neg (by decide), hexpand, ok_bind, hout] at hplain
  have heq := congrArg List.length (Except.ok.inj hplain)
  rw [hlen, List.length_append, List.length_singleton] at heq
  omega

theorem exists_not_roundTrip (x : Bytes) :
    ∃ encUninit decUninit, ¬ RoundTrip encUninit decUninit x := by
  by_contra hall
  push Not at hall
  -- the encryption at one content of its arrays, and the two contents for its decryption
  obtain ⟨out, henc, hpos, hdvd, -⟩ := hall (fun _ _ => 0) (fun _ _ => 0)
  obtain ⟨u, u', plain, plain', last, last', hrun, hrun', hlen, hne⟩ :=
    exists_lastByte_ne hpos hdvd
  have back : ∀ v : ℕ → ℕ → BitVec 64, desDec v out = .ok x := by
    intro v
    obtain ⟨out', henc', -, -, hdec⟩ := hall (fun _ _ => 0) v
    rw [Except.ok.inj (henc.symm.trans henc')]
    exact hdec
  obtain ⟨hpad, hx⟩ := length_of_desDec hrun (back u)
  obtain ⟨hpad', hx'⟩ := length_of_desDec hrun' (back u')
  have hlong := length_myicDESDecrypt hdvd hrun
  apply hne
  apply UInt8.toNat_inj.mp
  omega

/-- No byte string comes back whatever the local arrays held. -/
theorem desDec_desEnc_never (x : Bytes) :
    ¬ ∀ encUninit decUninit, RoundTrip encUninit decUninit x := by
  intro h
  obtain ⟨encUninit, decUninit, hnot⟩ := exists_not_roundTrip x
  exact hnot (h encUninit decUninit)

/-- The empty text, which is one block of padding. -/
theorem desDec_desEnc_empty :
    ¬ ∀ x encUninit decUninit, RoundTrip encUninit decUninit x := by
  intro h
  obtain ⟨encUninit, decUninit, hnot⟩ := exists_not_roundTrip []
  exact hnot (h [] encUninit decUninit)

end CServer.Des
