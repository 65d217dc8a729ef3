import CServer.CloudDisk.Base64

/-!
# What base64_decode reads

`base64_decode` on a text that need not come from `base64_encode`. The loop tests every fourth
byte for the terminator and reads the three behind it in any case, so it may pass the terminator.
Here its counter is an `int`: a counter that leaves the type is a read outside.
-/
namespace CServer.CloudDisk

/-- The loop of `base64_decode` from `base64[i]` on. -/
def base64DecodeLoop (i : ℕ) : Bytes → Except Fault Bytes
  | [] => .error .readOutside
  | c₀ :: base64 =>
    if c₀ = 0 then .ok []
    else match base64 with
      | c₁ :: c₂ :: c₃ :: base64 =>
        let first := byte₀ (sextetOf c₀) (sextetOf c₁)
        let second := byte₁ (sextetOf c₁) (sextetOf c₂)
        let third := byte₂ (sextetOf c₂) (sextetOf c₃)
        if c₂ = pad then .ok [first]
        else if c₃ = pad then .ok [first, second]
        else if i + 4 < 2 ^ 31 then
          (base64DecodeLoop (i + 4) base64).map ([first, second, third] ++ ·)
        else .error .readOutside
      | _ => .error .readOutside

/-- In a buffer that the counter does not leave, this is the loop with an unbounded counter. -/
theorem base64DecodeLoop_eq :
    ∀ (base64 : Bytes) (i : ℕ), i + base64.length < 2 ^ 31 →
      base64DecodeLoop i base64 = base64DecodeFrom base64
  | [], i, _ => rfl
  | [c₀], i, _ => rfl
  | [c₀, c₁], i, _ => rfl
  | [c₀, c₁, c₂], i, _ => rfl
  | c₀ :: c₁ :: c₂ :: c₃ :: base64, i, h => by
    simp only [List.length_cons] at h
    have ih := base64DecodeLoop_eq base64 (i + 4) (by omega)
    have hint : i + 4 < 2 ^ 31 := by omega
    simp only [base64DecodeLoop, base64DecodeFrom, if_pos hint, ih]

/-! ## Where the loop ends -/

/-- The group of four characters from `4 * g` on ends in the padding character. -/
def Padded (text : Bytes) (g : ℕ) : Prop :=
  text[4 * g + 2]? = some pad ∨ text[4 * g + 3]? = some pad

/-- The loop comes to the terminator or to a padded group, with its counter in the type `int`. -/
def ComesToEnd (text : Bytes) (i : ℕ) : Prop :=
  4 ∣ text.length ∧ i + text.length < 2 ^ 31 ∨ ∃ g, i + 4 * g < 2 ^ 31 ∧ Padded text g

theorem padded_cons_succ (c₀ c₁ c₂ c₃ : UInt8) (text : Bytes) (g : ℕ) :
    Padded (c₀ :: c₁ :: c₂ :: c₃ :: text) (g + 1) ↔ Padded text g := by
  have h₂ : 4 * (g + 1) + 2 = 4 * g + 2 + 4 := by omega
  have h₃ : 4 * (g + 1) + 3 = 4 * g + 3 + 4 := by omega
  rw [Padded, Padded, h₂, h₃]
  rfl

theorem padded_cons_zero (c₀ c₁ c₂ c₃ : UInt8) (text : Bytes) :
    Padded (c₀ :: c₁ :: c₂ :: c₃ :: text) 0 ↔ c₂ = pad ∨ c₃ = pad := by
  simp [Padded]

theorem not_padded_of_length_le {text : Bytes} (h : text.length ≤ 2) (g : ℕ) :
    ¬ Padded text g := by
  rintro (hpad | hpad)
  · have hlt := (List.getElem?_eq_some_iff.mp hpad).1
    omega
  · have hlt := (List.getElem?_eq_some_iff.mp hpad).1
    omega

theorem not_comesToEnd_of_length_le {text : Bytes} {i : ℕ} (hne : text ≠ [])
    (h : text.length ≤ 2) : ¬ ComesToEnd text i := by
  have hpos := List.length_pos_of_ne_nil hne
  rintro (⟨hdvd, -⟩ | ⟨g, -, hpad⟩)
  · omega
  · exact not_padded_of_length_le h g hpad

/-- A group without padding in front. -/
theorem comesToEnd_cons {c₀ c₁ c₂ c₃ : UInt8} {text : Bytes} {i : ℕ} (h₂ : c₂ ≠ pad)
    (h₃ : c₃ ≠ pad) : ComesToEnd (c₀ :: c₁ :: c₂ :: c₃ :: text) i ↔ ComesToEnd text (i + 4) := by
  have hlength : (c₀ :: c₁ :: c₂ :: c₃ :: text).length = text.length + 4 := rfl
  have hgroups : (∃ g, i + 4 * g < 2 ^ 31 ∧ Padded (c₀ :: c₁ :: c₂ :: c₃ :: text) g) ↔
      ∃ g, i + 4 + 4 * g < 2 ^ 31 ∧ Padded text g := by
    constructor
    · rintro ⟨g, hg, hpad⟩
      cases g with
      | zero => exact absurd ((padded_cons_zero c₀ c₁ c₂ c₃ text).mp hpad) (by simp [h₂, h₃])
      | succ g => exact ⟨g, by omega, (padded_cons_succ c₀ c₁ c₂ c₃ text g).mp hpad⟩
    · rintro ⟨g, hg, hpad⟩
      exact ⟨g + 1, by omega, (padded_cons_succ c₀ c₁ c₂ c₃ text g).mpr hpad⟩
  rw [ComesToEnd, ComesToEnd, hgroups, hlength]
  refine or_congr_left ?_
  omega

/-- The loop on the rest of a text: it ends in the buffer, and writes three bytes at most for
four characters, exactly if it comes to an end. -/
theorem base64DecodeLoop_iff :
    ∀ (text : Bytes) (i : ℕ), i < 2 ^ 31 → 0 ∉ text →
      ((∃ bindata, base64DecodeLoop i (text ++ [0]) = .ok bindata ∧
          4 * bindata.length ≤ 3 * text.length) ↔ ComesToEnd text i)
  | [], i, hi, _ => by
    exact iff_of_true ⟨[], rfl, le_rfl⟩ (.inl ⟨dvd_zero 4, hi⟩)
  | [c₀], i, _, hzero => by
    have hc₀ : c₀ ≠ 0 := fun h => hzero (h ▸ List.mem_cons_self)
    refine iff_of_false ?_ (not_comesToEnd_of_length_le (by simp) (by simp))
    rintro ⟨bindata, hloop, -⟩
    simp [base64DecodeLoop, hc₀] at hloop
  | [c₀, c₁], i, _, hzero => by
    have hc₀ : c₀ ≠ 0 := fun h => hzero (h ▸ List.mem_cons_self)
    refine iff_of_false ?_ (not_comesToEnd_of_length_le (by simp) (by simp))
    rintro ⟨bindata, hloop, -⟩
    simp [base64DecodeLoop, hc₀] at hloop
  | [c₀, c₁, c₂], i, hi, hzero => by
    have hc₀ : c₀ ≠ 0 := fun h => hzero (h ▸ List.mem_cons_self)
    by_cases hpad : c₂ = pad
    · refine iff_of_true ⟨[byte₀ (sextetOf c₀) (sextetOf c₁)], ?_, ?_⟩ (.inr ⟨0, hi, .inl ?_⟩)
      · simp [base64DecodeLoop, hc₀, hpad]
      · simp
      · simp [hpad]
    · -- the terminator is read as the fourth character, and the next turn begins behind it
      refine iff_of_false ?_ ?_
      · rintro ⟨bindata, hloop, -⟩
        have hterminator : (0 : UInt8) ≠ pad := by decide
        simp [base64DecodeLoop, hc₀, hpad, hterminator, Except.map] at hloop
      · rintro (⟨hdvd, -⟩ | ⟨g, -, hpadded⟩)
        · have hthree : 4 ∣ 3 := hdvd
          omega
        · cases g with
          | zero => simp [Padded, hpad] at hpadded
          | succ g => simp [Padded, Nat.mul_add] at hpadded
  | c₀ :: c₁ :: c₂ :: c₃ :: text, i, hi, hzero => by
    have hc₀ : c₀ ≠ 0 := fun h => hzero (h ▸ List.mem_cons_self)
    have hrest : 0 ∉ text := fun h => hzero (by simp [h])
    by_cases hpad₂ : c₂ = pad
    · refine iff_of_true ⟨[byte₀ (sextetOf c₀) (sextetOf c₁)], ?_, ?_⟩ (.inr ⟨0, hi, ?_⟩)
      · simp [base64DecodeLoop, hc₀, hpad₂]
      · simp only [List.length_cons, List.length_nil]
        omega
      · exact (padded_cons_zero c₀ c₁ c₂ c₃ text).mpr (.inl hpad₂)
    · by_cases hpad₃ : c₃ = pad
      · refine iff_of_true ⟨[byte₀ (sextetOf c₀) (sextetOf c₁), byte₁ (sextetOf c₁) (sextetOf c₂)],
          ?_, ?_⟩ (.inr ⟨0, hi, ?_⟩)
        · simp [base64DecodeLoop, hc₀, hpad₂, hpad₃]
        · simp only [List.length_cons, List.length_nil]
          omega
        · exact (padded_cons_zero c₀ c₁ c₂ c₃ text).mpr (.inr hpad₃)
      · rw [comesToEnd_cons hpad₂ hpad₃]
        by_cases hint : i + 4 < 2 ^ 31
        · rw [← base64DecodeLoop_iff text (i + 4) hint hrest]
          simp only [List.cons_append, base64DecodeLoop, hc₀, hpad₂, hpad₃, hint, if_true, if_false]
          constructor
          · rintro ⟨bindata, hloop, hlength⟩
            cases hrun : base64DecodeLoop (i + 4) (text ++ [0]) with
            | error fault =>
              rw [hrun] at hloop
              exact absurd hloop (by simp [Except.map])
            | ok rest =>
              rw [hrun] at hloop
              obtain rfl := Except.ok.inj hloop
              refine ⟨rest, rfl, ?_⟩
              simp only [List.length_cons, List.length_append, List.length_nil] at hlength
              omega
          · rintro ⟨bindata, hloop, hlength⟩
            refine ⟨_, by rw [hloop]; rfl, ?_⟩
            simp only [List.length_cons, List.length_append, List.length_nil]
            omega
        · refine iff_of_false ?_ ?_
          · rintro ⟨bindata, hloop, -⟩
            simp only [List.cons_append, base64DecodeLoop, hc₀, hpad₂, hpad₃, hint, if_false,
              reduceCtorEq] at hloop
          · rintro (⟨-, hlt⟩ | ⟨g, hlt, -⟩) <;> omega

/-- `base64_decode` of a text and its terminator reads nothing behind the terminator and writes
three bytes at most for four characters exactly if the length of the text is a multiple of four
that an `int` counts, or a group that an `int` counts is padded. -/
theorem base64Decode_within_iff (text : Bytes) (hzero : 0 ∉ text) :
    (∃ bindata, base64DecodeLoop 0 (text ++ [0]) = .ok bindata ∧
        4 * bindata.length ≤ 3 * text.length) ↔
      4 ∣ text.length ∧ text.length < 2 ^ 31 ∨
        ∃ g, 4 * g < 2 ^ 31 ∧ (text[4 * g + 2]? = some pad ∨ text[4 * g + 3]? = some pad) := by
  have hloop := base64DecodeLoop_iff text 0 (by decide) hzero
  simpa only [ComesToEnd, Padded, Nat.zero_add] using hloop

/-- Three characters, the last of them the padding. -/
theorem base64Decode_within_three :
    ∃ bindata, base64DecodeLoop 0 (bytes "YQ=" ++ [0]) = .ok bindata ∧
      4 * bindata.length ≤ 3 * (bytes "YQ=").length :=
  (base64Decode_within_iff (bytes "YQ=") (by decide)).mpr (.inr ⟨0, by decide, by decide⟩)

/-- One character: the third read is behind the terminator. -/
theorem base64Decode_one_character :
    base64DecodeLoop 0 (bytes "A" ++ [0]) = .error .readOutside := by
  decide

end CServer.CloudDisk
