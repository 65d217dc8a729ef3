import CServer.Ciphers.AesRounds
import CServer.Foundation.Streams
import Mathlib.Data.Nat.ModEq

/-!
# The modes of aes.c

A context holds the round keys and the vector. `AES_CBC_encrypt_buffer` and `AES_CBC_decrypt_buffer`
are given whole blocks, as aes.h demands; `AES_CTR_xcrypt_buffer` takes any number of bytes. All of
them leave the vector for the next call in the context.
-/
namespace CServer.Aes

open CServer.Streams

variable {v : Variant} {s t iv buffer : Block}

/-- `struct AES_ctx`. -/
structure Ctx (v : Variant) where
  roundKey : RoundKey v
  iv : Block

/-- `AES_init_ctx`. -/
def initCtx (ctx : Ctx v) (key : Key v) : Ctx v :=
  { ctx with roundKey := keyExpansion ctx.roundKey key }

/-- `AES_init_ctx_iv`. -/
def initCtxIv (ctx : Ctx v) (key : Key v) (iv : Block) : Ctx v :=
  { roundKey := keyExpansion ctx.roundKey key, iv := iv }

/-- `AES_ECB_encrypt`. -/
def ecbEncrypt (ctx : Ctx v) (buf : Block) : Block := cipher ctx.roundKey buf

/-- `AES_ECB_decrypt`. -/
def ecbDecrypt (ctx : Ctx v) (buf : Block) : Block := invCipher ctx.roundKey buf

/-- `XorWithIv`. -/
def xorWithIv (buf iv : Block) : Block := Vector.zipWith (· ^^^ ·) buf iv

/-- The loop of `AES_CBC_encrypt_buffer`; `iv` is what the pointer `Iv` refers to. -/
def cbcEncryptLoop (roundKey : RoundKey v) (iv : Block) : List Block → List Block × Block
  | [] => ([], iv)
  | buf :: rest =>
    let buf := cipher roundKey (xorWithIv buf iv)
    let (rest, iv) := cbcEncryptLoop roundKey buf rest
    (buf :: rest, iv)

/-- `AES_CBC_encrypt_buffer`. -/
def cbcEncryptBuffer (ctx : Ctx v) (buf : List Block) : List Block × Ctx v :=
  let (buf, iv) := cbcEncryptLoop ctx.roundKey ctx.iv buf
  (buf, { ctx with iv := iv })

/-- `AES_CBC_decrypt_buffer`. -/
def cbcDecryptBuffer (ctx : Ctx v) : List Block → List Block × Ctx v
  | [] => ([], ctx)
  | buf :: rest =>
    let storeNextIv := buf
    let buf := xorWithIv (invCipher ctx.roundKey buf) ctx.iv
    let (rest, ctx) := cbcDecryptBuffer { ctx with iv := storeNextIv } rest
    (buf :: rest, ctx)

/-- The loop of `AES_CTR_xcrypt_buffer` that adds one to the vector, from the byte before `bi` on. -/
def incrementFrom (iv : Block) : ℕ → Block
  | 0 => iv
  | bi + 1 =>
    if byteAt iv bi = 255 then incrementFrom (iv.setIfInBounds bi 0) bi
    else iv.setIfInBounds bi (byteAt iv bi + 1)

def increment (iv : Block) : Block := incrementFrom iv 16

/-- The other loop. `buffer` holds what the next bytes are combined with and `bi` says from where
on. -/
def xcryptLoop (roundKey : RoundKey v) (iv buffer : Block) (bi : ℕ) :
    List UInt8 → List UInt8 × Block
  | [] => ([], iv)
  | byte :: rest =>
    let (buffer, iv, bi) :=
      if bi = 16 then (cipher roundKey iv, increment iv, 0) else (buffer, iv, bi)
    let byte := byte ^^^ byteAt buffer bi
    let (rest, iv) := xcryptLoop roundKey iv buffer (bi + 1) rest
    (byte :: rest, iv)

/-- `AES_CTR_xcrypt_buffer`. The buffer on the stack is filled before the first byte. -/
def ctrXcryptBuffer (ctx : Ctx v) (buf : List UInt8) : List UInt8 × Ctx v :=
  let (buf, iv) := xcryptLoop ctx.roundKey ctx.iv (Vector.replicate 16 0) 16 buf
  (buf, { ctx with iv := iv })

/-! ## The round keys come from the key alone -/

theorem byteAt_set {n : ℕ} (m : Vector UInt8 n) (a k : ℕ) (x : UInt8) :
    byteAt (m.setIfInBounds a x) k = if a = k ∧ a < n then x else byteAt m k := by
  simp only [byteAt, Vector.getElem?_setIfInBounds]
  by_cases heq : a = k
  · by_cases hbound : a < n
    · simp [heq ▸ hbound, heq]
    · simp [heq ▸ hbound, heq]
  · simp [heq]

theorem byteAt_set_congr {n a k : ℕ} {m m' : Vector UInt8 n} (x : UInt8)
    (h : k ≠ a → byteAt m k = byteAt m' k) :
    byteAt (m.setIfInBounds a x) k = byteAt (m'.setIfInBounds a x) k := by
  rw [byteAt_set, byteAt_set]
  by_cases heq : a = k
  · by_cases hbound : a < n
    · rw [if_pos ⟨heq, hbound⟩, if_pos ⟨heq, hbound⟩]
    · simp [byteAt, heq ▸ hbound]
  · rw [if_neg (fun hpair => heq hpair.1), if_neg (fun hpair => heq hpair.1), h (Ne.symm heq)]

/-- The first words of two arrays are the same. -/
def SameWords {n : ℕ} (m m' : Vector UInt8 n) (words : ℕ) : Prop :=
  ∀ k < words * 4, byteAt m k = byteAt m' k

theorem SameWords.readWord {n i j : ℕ} {m m' : Vector UInt8 n} (h : SameWords m m' i) (hj : j < i) :
    readWord m (j * 4) = readWord m' (j * 4) := by
  rw [Aes.readWord, Aes.readWord, h (j * 4 + 0) (by omega), h (j * 4 + 1) (by omega),
    h (j * 4 + 2) (by omega), h (j * 4 + 3) (by omega)]

theorem SameWords.writeWord {n i : ℕ} {m m' : Vector UInt8 n} (h : SameWords m m' i) (w : Word) :
    SameWords (writeWord m (i * 4) w) (writeWord m' (i * 4) w) (i + 1) := by
  intro k hk
  refine byteAt_set_congr w.t3 fun h3 => byteAt_set_congr w.t2 fun h2 =>
    byteAt_set_congr w.t1 fun h1 => byteAt_set_congr w.t0 fun h0 => h k (by omega)

theorem sameWords_copyKey (key : Key v) (m m' : RoundKey v) (i : ℕ) :
    SameWords (copyKey key m i) (copyKey key m' i) i := by
  induction i with
  | zero => exact fun k hk => absurd hk (by omega)
  | succ i ih => exact ih.writeWord _

theorem Variant.nk_pos (v : Variant) : 0 < v.nk := by
  cases v <;> decide

/-- A turn reads only words before the one that it writes. -/
theorem SameWords.expandWord {i : ℕ} {m m' : RoundKey v} (h : SameWords m m' i) (hi : 0 < i) :
    SameWords (expandWord m i) (expandWord m' i) (i + 1) := by
  have hpos := v.nk_pos
  have hlast : Aes.readWord m ((i - 1) * 4) = Aes.readWord m' ((i - 1) * 4) :=
    h.readWord (by omega)
  have hback : Aes.readWord m ((i - v.nk) * 4) = Aes.readWord m' ((i - v.nk) * 4) :=
    h.readWord (by omega)
  rw [Aes.expandWord, Aes.expandWord, hlast, hback]
  exact h.writeWord _

theorem SameWords.expandWords {m m' : RoundKey v} (h : SameWords m m' v.nk) (n : ℕ) :
    SameWords (expandWords m n) (expandWords m' n) (v.nk + n) := by
  induction n with
  | zero => exact h
  | succ n ih => exact ih.expandWord (Nat.add_pos_left v.nk_pos n)

/-- Nothing of what was in the context before is left in the round keys. -/
theorem keyExpansion_fresh (m m' : RoundKey v) (key : Key v) :
    keyExpansion m key = keyExpansion m' key := by
  have hsame := (sameWords_copyKey key m m' v.nk).expandWords (4 * (v.nr + 1) - v.nk)
  refine Vector.ext fun k hk => ?_
  have hwords : k < (v.nk + (4 * (v.nr + 1) - v.nk)) * 4 := by
    cases v <;> exact hk
  have hbyte := hsame k hwords
  simpa [byteAt, hk, keyExpansion] using hbyte

/-- Whatever was in the two contexts before, after `AES_init_ctx` with the same key `AES_ECB_encrypt`
and `AES_ECB_decrypt` are inverse permutations of the blocks. -/
theorem ecb_permutes (ctx ctx' : Ctx v) (key : Key v) :
    Function.LeftInverse (ecbDecrypt (initCtx ctx' key)) (ecbEncrypt (initCtx ctx key)) ∧
      Function.RightInverse (ecbDecrypt (initCtx ctx' key)) (ecbEncrypt (initCtx ctx key)) := by
  have hkeys : (initCtx ctx' key).roundKey = (initCtx ctx key).roundKey :=
    keyExpansion_fresh _ _ key
  constructor
  · intro buf
    rw [ecbDecrypt, ecbEncrypt, hkeys, invCipher_cipher]
  · intro buf
    rw [ecbDecrypt, ecbEncrypt, hkeys, cipher_invCipher]

/-! ## The chained blocks -/

theorem xorWithIv_xorWithIv (buf iv : Block) : xorWithIv (xorWithIv buf iv) iv = buf := by
  refine Vector.ext fun k hk => ?_
  simp [xorWithIv, UInt8.xor_assoc]

theorem cbcEncryptLoop_append (roundKey : RoundKey v) (xs ys : List Block) : ∀ iv,
    cbcEncryptLoop roundKey iv (xs ++ ys) =
      ((cbcEncryptLoop roundKey iv xs).1 ++
        (cbcEncryptLoop roundKey (cbcEncryptLoop roundKey iv xs).2 ys).1,
        (cbcEncryptLoop roundKey (cbcEncryptLoop roundKey iv xs).2 ys).2) := by
  induction xs with
  | nil => intro iv; rfl
  | cons buf xs ih =>
    intro iv
    simp only [List.cons_append, cbcEncryptLoop, ih]

theorem cbcEncryptBuffer_sequential : Sequential (cbcEncryptBuffer (v := v)) where
  nil ctx := rfl
  append ctx xs ys := by
    simp only [cbcEncryptBuffer, cbcEncryptLoop_append]

theorem cbcDecryptBuffer_sequential : Sequential (cbcDecryptBuffer (v := v)) where
  nil ctx := rfl
  append ctx xs ys := by
    induction xs generalizing ctx with
    | nil => rfl
    | cons buf xs ih =>
      rw [List.cons_append, cbcDecryptBuffer, ih]
      rfl

/-- One call takes one call back. -/
theorem cbcDecryptBuffer_cbcEncryptBuffer (buf : List Block) : ∀ ctx : Ctx v,
    cbcDecryptBuffer ctx (cbcEncryptBuffer ctx buf).1 = (buf, (cbcEncryptBuffer ctx buf).2) := by
  induction buf with
  | nil => intro ctx; rfl
  | cons b buf ih =>
    intro ctx
    have hrest := ih { ctx with iv := cipher ctx.roundKey (xorWithIv b ctx.iv) }
    simp only [cbcEncryptBuffer, cbcEncryptLoop, cbcDecryptBuffer] at hrest ⊢
    rw [hrest, invCipher_cipher, xorWithIv_xorWithIv]

theorem initCtxIv_fresh (ctx ctx' : Ctx v) (key : Key v) (iv : Block) :
    initCtxIv ctx key iv = initCtxIv ctx' key iv := by
  rw [initCtxIv, initCtxIv, keyExpansion_fresh ctx.roundKey ctx'.roundKey]

/-- Whatever was in the two contexts before, once both have the same key and vector the receiver gets
the blocks back that were sent, in whatever pieces the calls of the two sides cut them, and the
contexts are the same again. -/
theorem cbc_restores (ctx ctx' : Ctx v) (key : Key v) (iv : Block) (sent received : List (List Block))
    (h : received.flatten = (calls cbcEncryptBuffer (initCtxIv ctx key iv) sent).1.flatten) :
    (calls cbcDecryptBuffer (initCtxIv ctx' key iv) received).1.flatten = sent.flatten ∧
      (calls cbcDecryptBuffer (initCtxIv ctx' key iv) received).2 =
        (calls cbcEncryptBuffer (initCtxIv ctx key iv) sent).2 := by
  have hsent := cbcEncryptBuffer_sequential.calls_eq sent (initCtxIv ctx key iv)
  have hreceived := cbcDecryptBuffer_sequential.calls_eq received (initCtxIv ctx' key iv)
  have hback := cbcDecryptBuffer_cbcEncryptBuffer sent.flatten (initCtxIv ctx key iv)
  rw [hsent] at hback
  rw [h, initCtxIv_fresh ctx' ctx, hback] at hreceived
  rw [initCtxIv_fresh ctx' ctx]
  exact ⟨(congrArg Prod.fst hreceived).symm, (congrArg Prod.snd hreceived).symm⟩

/-- Three blocks of zeros, sent by two calls and received by two others. -/
theorem cbc_restores_three_blocks :
    let blank : Block := Vector.replicate 16 0
    let sender : Ctx .aes192 := ⟨Vector.replicate 208 1, blank⟩
    let receiver : Ctx .aes192 := ⟨Vector.replicate 208 2, blank⟩
    let key : Key .aes192 := Vector.replicate 24 3
    let secret := (calls cbcEncryptBuffer (initCtxIv sender key blank) [[blank, blank], [blank]]).1.flatten
    (calls cbcDecryptBuffer (initCtxIv receiver key blank) [secret.take 1, secret.drop 1]).1.flatten =
      [blank, blank, blank] := by
  intro blank sender receiver key secret
  have hcut : [secret.take 1, secret.drop 1].flatten = secret := by
    rw [List.flatten_cons, List.flatten_cons, List.flatten_nil, List.append_nil, List.take_append_drop]
  exact (cbc_restores sender receiver key blank [[blank, blank], [blank]] _ hcut).1

/-! ## The counter -/

theorem xcryptLoop_nil (roundKey : RoundKey v) (iv buffer : Block) (bi : ℕ) :
    xcryptLoop roundKey iv buffer bi [] = ([], iv) := rfl

/-- The byte `k` of the stream that is combined with the data, when the vector is `iv`. -/
def keystream (roundKey : RoundKey v) (iv : Block) (k : ℕ) : UInt8 :=
  byteAt (cipher roundKey (increment^[k / 16] iv)) (k % 16)

theorem keystream_increment (roundKey : RoundKey v) (iv : Block) (k : ℕ) :
    keystream roundKey (increment iv) k = keystream roundKey iv (k + 16) := by
  rw [keystream, keystream, Nat.add_mod_right, Nat.add_div_right k (by decide),
    Function.iterate_succ_apply]

/-- What the loop combines the byte `q` with, counted from the start of `buffer`. -/
def upcoming (roundKey : RoundKey v) (iv buffer : Block) (q : ℕ) : UInt8 :=
  if q < 16 then byteAt buffer q else keystream roundKey iv (q - 16)

theorem upcoming_refill (roundKey : RoundKey v) (iv buffer : Block) (k : ℕ) :
    upcoming roundKey (increment iv) (cipher roundKey iv) k =
      upcoming roundKey iv buffer (16 + k) := by
  rw [upcoming, upcoming, if_neg (show ¬16 + k < 16 by omega), Nat.add_sub_cancel_left]
  split
  · rename_i hfirst
    rw [keystream, Nat.div_eq_of_lt hfirst, Nat.mod_eq_of_lt hfirst]
    rfl
  · rename_i hlater
    rw [keystream_increment, Nat.sub_add_cancel (not_lt.mp hlater)]

theorem xcryptLoop_cons {bi : ℕ} (roundKey : RoundKey v) (iv buffer : Block) (byte : UInt8)
    (rest : List UInt8) (hbi : bi < 16) : xcryptLoop roundKey iv buffer bi (byte :: rest) =
      ((byte ^^^ byteAt buffer bi) :: (xcryptLoop roundKey iv buffer (bi + 1) rest).1,
        (xcryptLoop roundKey iv buffer (bi + 1) rest).2) := by
  rw [xcryptLoop, if_neg (Nat.ne_of_lt hbi)]

/-- At the end of the buffer the loop goes on as from the start of a new one. -/
theorem xcryptLoop_refill (roundKey : RoundKey v) (iv buffer : Block) (byte : UInt8)
    (rest : List UInt8) : xcryptLoop roundKey iv buffer 16 (byte :: rest) =
      xcryptLoop roundKey (increment iv) (cipher roundKey iv) 0 (byte :: rest) := by
  rw [xcryptLoop, if_pos rfl, xcryptLoop, if_neg (by decide)]

theorem xcryptLoop_get (roundKey : RoundKey v) (bytes : List UInt8) :
    ∀ iv buffer bi, bi ≤ 16 → ∀ k, (xcryptLoop roundKey iv buffer bi bytes).1[k]? =
      bytes[k]?.map (· ^^^ upcoming roundKey iv buffer (bi + k)) := by
  induction bytes with
  | nil => intro iv buffer bi _ k; rfl
  | cons byte rest ih =>
    have hinside : ∀ iv buffer bi, bi < 16 → ∀ k,
        (xcryptLoop roundKey iv buffer bi (byte :: rest)).1[k]? =
          (byte :: rest)[k]?.map (· ^^^ upcoming roundKey iv buffer (bi + k)) := by
      intro iv buffer bi hbi k
      rw [xcryptLoop_cons roundKey iv buffer byte rest hbi]
      cases k with
      | zero => simp [upcoming, hbi]
      | succ k => simp [ih iv buffer (bi + 1) hbi k, Nat.add_right_comm bi 1 k, Nat.add_assoc]
    intro iv buffer bi hbi k
    obtain hlt | rfl := Nat.lt_or_eq_of_le hbi
    · exact hinside iv buffer bi hlt k
    · rw [xcryptLoop_refill, hinside _ _ 0 (by decide), Nat.zero_add, upcoming_refill]

/-- The vector after the loop. -/
theorem xcryptLoop_iv (roundKey : RoundKey v) (bytes : List UInt8) :
    ∀ iv buffer bi, 0 < bi → bi ≤ 16 → (xcryptLoop roundKey iv buffer bi bytes).2 =
      increment^[(bi + bytes.length - 1) / 16] iv := by
  induction bytes with
  | nil =>
    intro iv buffer bi hpos hbi
    rw [xcryptLoop_nil, Nat.div_eq_of_lt (by simp; omega)]
    rfl
  | cons byte rest ih =>
    intro iv buffer bi hpos hbi
    obtain hlt | rfl := Nat.lt_or_eq_of_le hbi
    · rw [xcryptLoop_cons roundKey iv buffer byte rest hlt, ih iv buffer _ (by omega) hlt,
        List.length_cons, Nat.succ_add_eq_add_succ]
    · rw [xcryptLoop_refill, xcryptLoop_cons _ _ _ _ _ (by decide), ih _ _ _ (by decide) (by decide),
        ← Function.iterate_succ_apply, List.length_cons]
      congr 1
      omega

/-- The vectors that a buffer uses up. -/
def blocksOf (buf : List UInt8) : ℕ := (buf.length + 15) / 16

theorem ctrXcryptBuffer_get (ctx : Ctx v) (buf : List UInt8) (k : ℕ) :
    (ctrXcryptBuffer ctx buf).1[k]? = buf[k]?.map (· ^^^ keystream ctx.roundKey ctx.iv k) := by
  have hget := xcryptLoop_get ctx.roundKey buf ctx.iv (Vector.replicate 16 0) 16 (Nat.le_refl _) k
  rw [upcoming, if_neg (show ¬16 + k < 16 by omega), Nat.add_sub_cancel_left] at hget
  exact hget

theorem ctrXcryptBuffer_ctx (ctx : Ctx v) (buf : List UInt8) :
    (ctrXcryptBuffer ctx buf).2 = { ctx with iv := increment^[blocksOf buf] ctx.iv } := by
  have hiv := xcryptLoop_iv ctx.roundKey buf ctx.iv (Vector.replicate 16 0) 16 (by decide) (Nat.le_refl _)
  have hblocks : (16 + buf.length - 1) / 16 = blocksOf buf := by
    rw [blocksOf]
    congr 1
    omega
  rw [hblocks] at hiv
  simp only [ctrXcryptBuffer, hiv]

/-- The vectors that the buffers before the one numbered `j` use up. -/
def blocksBefore (bufs : List (List UInt8)) (j : ℕ) : ℕ := ((bufs.take j).map blocksOf).sum

theorem calls_ctrXcryptBuffer_get (bufs : List (List UInt8)) : ∀ (ctx : Ctx v) (j k : ℕ),
    ((calls ctrXcryptBuffer ctx bufs).1[j]?.bind (·[k]?)) = (bufs[j]?.bind (·[k]?)).map
      (· ^^^ keystream ctx.roundKey ctx.iv (16 * blocksBefore bufs j + k)) := by
  induction bufs with
  | nil => intro ctx j k; rfl
  | cons buf bufs ih =>
    intro ctx j k
    cases j with
    | zero => simpa [calls, blocksBefore] using ctrXcryptBuffer_get ctx buf k
    | succ j =>
      have hshift : keystream ctx.roundKey (increment^[blocksOf buf] ctx.iv)
          (16 * blocksBefore bufs j + k) =
          keystream ctx.roundKey ctx.iv (16 * blocksBefore (buf :: bufs) (j + 1) + k) := by
        have hbefore : blocksBefore (buf :: bufs) (j + 1) = blocksOf buf + blocksBefore bufs j := by
          simp [blocksBefore]
        have hblock : (16 * blocksBefore (buf :: bufs) (j + 1) + k) / 16 =
            (16 * blocksBefore bufs j + k) / 16 + blocksOf buf := by
          rw [hbefore]
          omega
        rw [keystream, keystream, hblock, ← Function.iterate_add_apply, Nat.mul_add_mod,
          Nat.mul_add_mod]
      have hlater := ih (ctrXcryptBuffer ctx buf).2 j k
      rw [ctrXcryptBuffer_ctx, hshift] at hlater
      simpa [calls, ctrXcryptBuffer_ctx] using hlater

theorem xcryptLoop_length (roundKey : RoundKey v) (bytes : List UInt8) : ∀ iv buffer bi,
    (xcryptLoop roundKey iv buffer bi bytes).1.length = bytes.length := by
  induction bytes with
  | nil => intro iv buffer bi; rfl
  | cons byte rest ih =>
    intro iv buffer bi
    simp only [xcryptLoop, List.length_cons, ih]

theorem ctrXcryptBuffer_twice (ctx : Ctx v) (buf : List UInt8) :
    ctrXcryptBuffer ctx (ctrXcryptBuffer ctx buf).1 = (buf, (ctrXcryptBuffer ctx buf).2) := by
  have hback : (ctrXcryptBuffer ctx (ctrXcryptBuffer ctx buf).1).1 = buf := by
    refine List.ext_getElem? fun k => ?_
    rw [ctrXcryptBuffer_get, ctrXcryptBuffer_get, Option.map_map]
    cases buf[k]? with
    | none => rfl
    | some byte => simp [UInt8.xor_assoc]
  have hlength : (ctrXcryptBuffer ctx buf).1.length = buf.length := xcryptLoop_length _ _ _ _ _
  refine Prod.ext hback ?_
  rw [ctrXcryptBuffer_ctx, ctrXcryptBuffer_ctx, blocksOf, hlength, blocksOf]

theorem calls_ctrXcryptBuffer_twice (bufs : List (List UInt8)) : ∀ ctx : Ctx v,
    (calls ctrXcryptBuffer ctx (calls ctrXcryptBuffer ctx bufs).1).1 = bufs := by
  induction bufs with
  | nil => intro ctx; rfl
  | cons buf bufs ih =>
    intro ctx
    simp only [calls, ctrXcryptBuffer_twice, ih]

/-- Every byte of every call is combined with its own byte of the stream, where a call begins with a
new block. A receiver with the same key and vector whose calls have the same lengths gets the
buffers back, whatever was in the two contexts before. -/
theorem ctr_restores (ctx ctx' : Ctx v) (key : Key v) (iv : Block) (bufs : List (List UInt8)) :
    let secret := (calls ctrXcryptBuffer (initCtxIv ctx key iv) bufs).1
    (∀ j k, (secret[j]?.bind (·[k]?)) = (bufs[j]?.bind (·[k]?)).map
      (· ^^^ keystream (initCtx ctx key).roundKey iv (16 * blocksBefore bufs j + k))) ∧
      (calls ctrXcryptBuffer (initCtxIv ctx' key iv) secret).1 = bufs := by
  refine ⟨calls_ctrXcryptBuffer_get bufs (initCtxIv ctx key iv), ?_⟩
  rw [initCtxIv_fresh ctx' ctx]
  exact calls_ctrXcryptBuffer_twice bufs _

/-! ## How long the stream goes on -/

/-- The first `n` bytes of the vector as a number. -/
def number (iv : Block) : ℕ → ℕ
  | 0 => 0
  | n + 1 => 256 * number iv n + (byteAt iv n).toNat

@[simp]
theorem number_succ (iv : Block) (n : ℕ) :
    number iv (n + 1) = 256 * number iv n + (byteAt iv n).toNat := rfl

theorem number_lt (iv : Block) (n : ℕ) : number iv n < 256 ^ n := by
  induction n with
  | zero => exact Nat.one_pos
  | succ n ih =>
    have hbyte : (byteAt iv n).toNat < 256 := UInt8.toNat_lt _
    rw [number_succ, pow_succ]
    omega

theorem number_congr (h : ∀ k, byteAt s k = byteAt t k) (n : ℕ) : number s n = number t n := by
  induction n with
  | zero => rfl
  | succ n ih => rw [number_succ, number_succ, ih, h]

theorem number_set {a : ℕ} (iv : Block) (x : UInt8) {n : ℕ} (hn : n ≤ a) :
    number (iv.setIfInBounds a x) n = number iv n := by
  induction n with
  | zero => rfl
  | succ n ih =>
    rw [number_succ, number_succ, ih (by omega), byteAt_set, if_neg (by omega)]

/-- The bytes from `bi` on stay. -/
theorem byteAt_incrementFrom (bi : ℕ) : ∀ (iv : Block) (k : ℕ), bi ≤ k →
    byteAt (incrementFrom iv bi) k = byteAt iv k := by
  induction bi with
  | zero => intro iv k _; rfl
  | succ bi ih =>
    intro iv k hk
    rw [incrementFrom]
    split
    · rw [ih _ k (by omega), byteAt_set, if_neg (by omega)]
    · rw [byteAt_set, if_neg (by omega)]

theorem number_incrementFrom (bi : ℕ) : ∀ iv : Block, bi ≤ 16 →
    number (incrementFrom iv bi) bi = (number iv bi + 1) % 256 ^ bi := by
  induction bi with
  | zero =>
    intro iv _
    rw [pow_zero, Nat.mod_one]
    rfl
  | succ bi ih =>
    intro iv hbi
    have hlt := number_lt iv bi
    rw [incrementFrom]
    split
    · rename_i hfull
      rw [number_succ, ih _ (by omega), byteAt_incrementFrom _ _ _ (Nat.le_refl bi), byteAt_set,
        if_pos ⟨rfl, hbi⟩, number_set _ _ (Nat.le_refl bi), number_succ, hfull, pow_succ']
      show 256 * ((number iv bi + 1) % 256 ^ bi) + 0 = (256 * number iv bi + 255 + 1) % (256 * 256 ^ bi)
      rw [Nat.add_zero, ← Nat.mul_mod_mul_left]
      rfl
    · rename_i hroom
      have hbyte : (byteAt iv bi).toNat ≠ 255 := fun heq => hroom (UInt8.toNat_inj.mp heq)
      have hbound : (byteAt iv bi).toNat < 256 := UInt8.toNat_lt _
      have hnext : (byteAt iv bi + 1).toNat = (byteAt iv bi).toNat + 1 := by
        rw [UInt8.toNat_add]
        exact Nat.mod_eq_of_lt (by simp; omega)
      rw [number_succ, number_set _ _ (Nat.le_refl bi), byteAt_set, if_pos ⟨rfl, hbi⟩, hnext,
        number_succ, Nat.mod_eq_of_lt, Nat.add_assoc]
      rw [pow_succ]
      omega

theorem number_increment (iv : Block) : number (increment iv) 16 = (number iv 16 + 1) % 256 ^ 16 :=
  number_incrementFrom 16 iv (Nat.le_refl _)

theorem number_iterate (iv : Block) (n : ℕ) :
    number (increment^[n] iv) 16 = (number iv 16 + n) % 256 ^ 16 := by
  induction n with
  | zero => exact (Nat.mod_eq_of_lt (number_lt iv 16)).symm
  | succ n ih =>
    rw [Function.iterate_succ_apply', number_increment, ih, Nat.mod_add_mod, Nat.add_assoc]

theorem byteAt_eq_of_number (n : ℕ) (h : number s n = number t n) : ∀ k < n, byteAt s k = byteAt t k := by
  induction n with
  | zero => exact fun k hk => absurd hk (Nat.not_lt_zero k)
  | succ n ih =>
    intro k hk
    have hs : (byteAt s n).toNat < 256 := UInt8.toNat_lt _
    have ht : (byteAt t n).toNat < 256 := UInt8.toNat_lt _
    rw [number_succ, number_succ] at h
    obtain hlt | rfl := Nat.lt_succ_iff_lt_or_eq.mp hk
    · exact ih (by omega) k hlt
    · exact UInt8.toNat_inj.mp (by omega)

theorem eq_of_number (h : number s 16 = number t 16) : s = t := by
  refine Vector.ext fun k hk => ?_
  have hbyte := byteAt_eq_of_number 16 h k hk
  simpa [byteAt, hk] using hbyte

end CServer.Aes
