import Coast.Security.Blowfish

/-!
# Scrambling strings with Blowfish

`BlowfishScrambler` pads behind the text and works block by block,
`BlowfishCBCScrambler` pads in front of it and chains the blocks.
-/

namespace Coast.Security.Blowfish

section

open List

def n2l (c0 c1 c2 c3 : Byte) : BFLong :=
  (c0.setWidth 64 <<< (24 : Nat)) ||| (c1.setWidth 64 <<< (16 : Nat)) |||
    (c2.setWidth 64 <<< (8 : Nat)) ||| c3.setWidth 64

def l2n (l : BFLong) : Bytes :=
  [(l >>> (24 : Nat)).setWidth 8, (l >>> (16 : Nat)).setWidth 8,
    (l >>> (8 : Nat)).setWidth 8, l.setWidth 8]

@[simp]
theorem length_l2n (l : BFLong) : (l2n l).length = 4 := rfl

theorem l2n_eq_of_low_eq {a b : BFLong} (same : low a = low b) : l2n a = l2n b := by
  have bit : ∀ i, i < 32 → a.getLsbD i = b.getLsbD i := by
    intro i bound
    have bitOfLow := congrArg (fun x : BitVec 32 => x.getLsbD i) same
    simpa [low, bound] using bitOfLow
  have part : ∀ shift, shift ≤ 24 → (a >>> shift).setWidth 8 = (b >>> shift).setWidth 8 := by
    intro shift bounded
    apply BitVec.eq_of_getLsbD_eq
    intro i bound
    simp only [BitVec.getLsbD_setWidth, BitVec.getLsbD_ushiftRight]
    rw [bit (shift + i) (by omega)]
  unfold l2n
  rw [part 24 (by decide), part 16 (by decide), part 8 (by decide)]
  have last := part 0 (by decide)
  simp only [BitVec.ushiftRight_zero] at last
  rw [last]

@[simp]
theorem l2n_n2l (c0 c1 c2 c3 : Byte) : l2n (n2l c0 c1 c2 c3) = [c0, c1, c2, c3] := by
  unfold l2n n2l
  simp only [List.cons.injEq, and_true]
  refine ⟨?_, ?_, ?_, ?_⟩ <;>
    (apply BitVec.eq_of_getLsbD_eq
     intro i bound
     interval_cases i <;> simp)

theorem n2l_l2n (l : BFLong) :
    n2l ((l >>> (24 : Nat)).setWidth 8) ((l >>> (16 : Nat)).setWidth 8)
        ((l >>> (8 : Nat)).setWidth 8) (l.setWidth 8) =
      l &&& longMask := by
  apply BitVec.eq_of_getLsbD_eq
  intro i bound
  unfold n2l longMask
  interval_cases i <;> simp

/-! ## The two modes over whole blocks -/

def ecbBlocks (cipher : BFLong × BFLong → BFLong × BFLong) : Nat → Bytes → Bytes
  | count + 1, a :: b :: c :: d :: e :: f :: g :: h :: rest =>
    let data := cipher (n2l a b c d, n2l e f g h)
    l2n data.1 ++ l2n data.2 ++ ecbBlocks cipher count rest
  | _, buffer => buffer

def doECBMultipleBlockEncrypt (fKey : BlowfishKey) (buffer : Bytes) (length : Nat) : Bytes :=
  let length := length % 2 ^ 32
  if length % bfBlock ≠ 0 then buffer
  else ecbBlocks (bfEncrypt fKey) (length / bfBlock) buffer

def doECBMultipleBlockDecrypt (fKey : BlowfishKey) (buffer : Bytes) (length : Nat) : Bool × Bytes :=
  let length := length % 2 ^ 32
  if length % bfBlock ≠ 0 then (false, buffer)
  else (true, ecbBlocks (bfDecrypt fKey) (length / bfBlock) buffer)

/-- The loop of `BlowfishCBCScrambler::DoBlowfishEncrypt`; `tout0` and
`tout1` are the previous cipher block. -/
def cbcEncryptBlocks (fKey : BlowfishKey) : Nat → BFLong × BFLong → Bytes → Bytes
  | count + 1, (tout0, tout1), a :: b :: c :: d :: e :: f :: g :: h :: rest =>
      let tin := bfEncrypt fKey (n2l a b c d ^^^ tout0, n2l e f g h ^^^ tout1)
      l2n tin.1 ++ l2n tin.2 ++ cbcEncryptBlocks fKey count tin rest
  | _, _, buffer => buffer

def cbcDecryptBlocks (fKey : BlowfishKey) : Nat → BFLong × BFLong → Bytes → Bytes
  | count + 1, (xor0, xor1), a :: b :: c :: d :: e :: f :: g :: h :: rest =>
      let tin := (n2l a b c d, n2l e f g h)
      let tout := bfDecrypt fKey tin
      l2n (tout.1 ^^^ xor0) ++ l2n (tout.2 ^^^ xor1) ++ cbcDecryptBlocks fKey count tin rest
  | _, _, buffer => buffer

theorem ecbBlocks_length (cipher : BFLong × BFLong → BFLong × BFLong)
    (count : Nat) (buffer : Bytes) :
    (ecbBlocks cipher count buffer).length = buffer.length := by
  fun_induction ecbBlocks cipher count buffer with
  | case1 _ _ _ _ _ _ _ _ _ _ _ ih =>
    simp only [length_append, length_l2n, length_cons, ih]
    omega
  | case2 => rfl

theorem cbcEncryptBlocks_length (fKey : BlowfishKey)
    (count : Nat) (chain : BFLong × BFLong) (buffer : Bytes) :
    (cbcEncryptBlocks fKey count chain buffer).length = buffer.length := by
  fun_induction cbcEncryptBlocks fKey count chain buffer with
  | case1 _ _ _ _ _ _ _ _ _ _ _ _ _ ih =>
    simp only [length_append, length_l2n, length_cons, ih]
    omega
  | case2 => rfl

theorem bfEncrypt_masked (fKey : BlowfishKey) (data : BFLong × BFLong) :
    (bfEncrypt fKey data).1 &&& longMask = (bfEncrypt fKey data).1 ∧
      (bfEncrypt fKey data).2 &&& longMask = (bfEncrypt fKey data).2 := by
  rw [bfEncrypt_eq_run]
  simp only [BitVec.and_assoc, BitVec.and_self, and_self]

theorem ecbBlocks_l2n (cipher : BFLong × BFLong → BFLong × BFLong)
    (count : Nat) (x y : BFLong) (rest : Bytes) :
    ecbBlocks cipher (count + 1) (l2n x ++ l2n y ++ rest) =
      (let data := cipher (x &&& longMask, y &&& longMask)
      l2n data.1 ++ l2n data.2 ++ ecbBlocks cipher count rest) := by
  rw [← n2l_l2n x, ← n2l_l2n y]
  rfl

theorem cbcDecryptBlocks_l2n (fKey : BlowfishKey) (count : Nat) (chain : BFLong × BFLong)
    (x y : BFLong) (rest : Bytes) :
    cbcDecryptBlocks fKey (count + 1) chain (l2n x ++ l2n y ++ rest) =
      (let tin := (x &&& longMask, y &&& longMask)
      let tout := bfDecrypt fKey tin
      l2n (tout.1 ^^^ chain.1) ++ l2n (tout.2 ^^^ chain.2) ++
        cbcDecryptBlocks fKey count tin rest) := by
  rw [← n2l_l2n x, ← n2l_l2n y]
  rfl

theorem ecbBlocks_decrypt_encrypt (fKey : BlowfishKey) (count : Nat) (buffer : Bytes) :
    ecbBlocks (bfDecrypt fKey) count (ecbBlocks (bfEncrypt fKey) count buffer) = buffer := by
  fun_induction ecbBlocks (bfEncrypt fKey) count buffer with
  | case1 count a b c d e f g h rest data ih =>
    obtain ⟨firstMasked, secondMasked⟩ := bfEncrypt_masked fKey (n2l a b c d, n2l e f g h)
    rw [ecbBlocks_l2n, ih]
    simp only [data]
    rw [firstMasked, secondMasked, bfDecrypt_bfEncrypt,
      l2n_eq_of_low_eq (low_and_mask (n2l a b c d)), l2n_eq_of_low_eq (low_and_mask (n2l e f g h)),
      l2n_n2l, l2n_n2l]
    rfl
  | case2 count buffer notBlock =>
    unfold ecbBlocks
    split
    · exact absurd rfl (notBlock _ _ _ _ _ _ _ _ _ _ rfl)
    · rfl

theorem cbcDecryptBlocks_encrypt (fKey : BlowfishKey) (count : Nat)
    (chain : BFLong × BFLong) (buffer : Bytes) :
    cbcDecryptBlocks fKey count chain
      (cbcEncryptBlocks fKey count chain buffer) = buffer := by
  fun_induction cbcEncryptBlocks fKey count chain buffer with
  | case1 count tout0 tout1 a b c d e f g h rest tin ih =>
    have plain : ∀ (text chained : BFLong),
        l2n (((text ^^^ chained) &&& longMask) ^^^ chained) = l2n text := by
      intro text chained
      apply l2n_eq_of_low_eq
      rw [low_xor, low_and_mask, low_xor, xor_xor_cancel]
    obtain ⟨firstMasked, secondMasked⟩ :=
      bfEncrypt_masked fKey (n2l a b c d ^^^ tout0, n2l e f g h ^^^ tout1)
    rw [cbcDecryptBlocks_l2n]
    simp only [tin] at ih ⊢
    rw [firstMasked, secondMasked, ih, bfDecrypt_bfEncrypt, plain, plain, l2n_n2l, l2n_n2l]
    rfl
  | case2 count chain buffer notBlock =>
    unfold cbcDecryptBlocks
    split
    · exact absurd rfl (notBlock _ _ _ _ _ _ _ _ _ _ _ _ rfl rfl)
    · rfl

def padCount (length : Nat) : Nat := (length / bfBlock + 1) * bfBlock - length

theorem padCount_bounds (length : Nat) :
    0 < padCount length ∧ padCount length ≤ 8 ∧ (length + padCount length) % 8 = 0 := by
  unfold padCount bfBlock
  omega

def padToBlockSize (cleartext : Bytes) : Bytes :=
  let pads := padCount cleartext.length
  cleartext ++ List.replicate (pads - 1) 0 ++ [BitVec.ofNat 8 pads]

/-- `BlowfishScrambler::UnPad`; a `char` is signed. -/
def unPad (cleartext : Bytes) : Bool × Bytes :=
  let length := cleartext.length
  let pads := (cleartext.getD (length - 1) 0).toInt
  if 0 < pads ∧ pads ≤ 8 then (true, cleartext.take (length - pads.toNat))
  else (length == 8, cleartext)

theorem length_padToBlockSize (cleartext : Bytes) :
    (padToBlockSize cleartext).length = cleartext.length + padCount cleartext.length := by
  have bounds := padCount_bounds cleartext.length
  unfold padToBlockSize
  simp only [length_append, length_replicate, length_singleton]
  omega

private theorem toInt_padCount :
    ∀ pads : Nat, 0 < pads → pads ≤ 8 → (BitVec.ofNat 8 pads).toInt = pads := by
  intro pads positive bounded
  interval_cases pads <;> rfl

theorem unPad_padToBlockSize (cleartext : Bytes) :
    unPad (padToBlockSize cleartext) = (true, cleartext) := by
  obtain ⟨positive, bounded, _⟩ := padCount_bounds cleartext.length
  have counter : (padToBlockSize cleartext).getD
      ((padToBlockSize cleartext).length - 1) 0 = BitVec.ofNat 8 (padCount cleartext.length) := by
    unfold padToBlockSize
    rw [length_append, length_singleton, Nat.add_sub_cancel]
    simp [List.getD]
  have counted := toInt_padCount _ positive bounded
  unfold unPad
  simp only [counter, counted, Int.toNat_natCast]
  rw [if_pos ⟨by omega, by omega⟩, length_padToBlockSize, Nat.add_sub_cancel]
  unfold padToBlockSize
  rw [append_assoc, take_left]

def randomHex (randNumber : BitVec 64) : Bytes :=
  (List.range 8).flatMap fun i =>
    appendAsHex ((randNumber >>> (8 * i)).setWidth 8)

/-- The loop of `generateRandomString`; every turn adds 16 characters, so
`length` turns are enough. -/
def fillRandom (nextRandomNumber : Nat → BitVec 64) (length : Nat) : Nat → Nat → Bytes → Bytes
  | 0, _, result => result
  | fuel + 1, drawn, result =>
    if result.length < length then
      fillRandom nextRandomNumber length fuel (drawn + 1)
        (result ++ randomHex (nextRandomNumber drawn))
    else result

/-- `coast::security::generateRandomString` over the numbers that the random
source will deliver. -/
def generateRandomString (nextRandomNumber : Nat → BitVec 64) (length : Nat) : Bytes :=
  (fillRandom nextRandomNumber length length 0 []).take length

theorem length_randomHex (randNumber : BitVec 64) : (randomHex randNumber).length = 16 := rfl

theorem le_length_fillRandom (nextRandomNumber : Nat → BitVec 64) (length : Nat) :
    ∀ fuel drawn result, length ≤ fuel + List.length result →
      length ≤ (fillRandom nextRandomNumber length fuel drawn result).length
  | 0, drawn, result, enough => by
      unfold fillRandom
      omega
  | fuel + 1, drawn, result, enough => by
      unfold fillRandom
      split
      · apply le_length_fillRandom
        rw [length_append, length_randomHex]
        omega
      · omega

theorem length_generateRandomString (nextRandomNumber : Nat → BitVec 64) (length : Nat) :
    (generateRandomString nextRandomNumber length).length = length := by
  have enough := le_length_fillRandom nextRandomNumber length length 0 [] (by simp)
  unfold generateRandomString
  rw [length_take, Nat.min_eq_left enough]

/-- `result.PutAt(0L, (result[0L] & 0xf0) | (pads & 0x0f))`. -/
def countInFront (pads : Nat) : Bytes → Bytes
  | [] => []
  | first :: rest =>
    ((first &&& 0xf0) ||| (BitVec.ofNat 8 pads &&& 0x0f)) :: rest

def padInFront (random cleartext : Bytes) : Bytes :=
  countInFront (padCount cleartext.length) random ++ cleartext

def unPadInFront (cleartext : Bytes) : Bool × Bytes :=
  let pads := (cleartext.getD 0 0 &&& 0x0f).toNat
  if 0 < pads ∧ pads ≤ 8 then (true, cleartext.drop pads)
  else (false, cleartext)

theorem length_padInFront (random cleartext : Bytes) :
    (padInFront random cleartext).length = random.length + cleartext.length := by
  unfold padInFront
  rw [length_append]
  cases random with
  | nil => rfl
  | cons first rest => rfl

private theorem low_nibble_count :
    ∀ first : Byte, ∀ pads : Nat, pads ≤ 8 →
      (((first &&& 0xf0) ||| (BitVec.ofNat 8 pads &&& 0x0f)) &&& 0x0f).toNat
        = pads := by
  intro first pads bounded
  have kept : ((first &&& 0xf0) ||| (BitVec.ofNat 8 pads &&& 0x0f)) &&& 0x0f =
      BitVec.ofNat 8 pads &&& 0x0f := by
    apply BitVec.eq_of_getLsbD_eq
    intro i bound
    interval_cases i <;> simp
  rw [kept]
  interval_cases pads <;> rfl

theorem unPadInFront_padInFront (random cleartext : Bytes)
    (length : random.length = padCount cleartext.length) :
    unPadInFront (padInFront random cleartext) = (true, cleartext) := by
  obtain ⟨positive, bounded, _⟩ := padCount_bounds cleartext.length
  cases random with
  | nil =>
    rw [length_nil] at length
    omega
  | cons first rest =>
    have counted := low_nibble_count first _ bounded
    unfold unPadInFront padInFront countInFront
    simp only [cons_append, getD_cons_zero, counted]
    rw [if_pos ⟨positive, bounded⟩, ← length, length_cons, drop_succ_cons, drop_left]

/-- The key bytes are read round and round: the byte at `d` and the next
`d`. -/
def nextKeyByte (keyin : Bytes) (len : Int) (d : Nat) : BFLong × Nat :=
  ((keyin.getD d 0).setWidth 64, if (d + 1 : Int) ≥ len then 0 else d + 1)

def nextKeyWord (keyin : Bytes) (len : Int) (d : Nat) : BFLong × Nat :=
  (List.range 4).foldl
    (fun (ri, d) _ =>
      let (next, d) := nextKeyByte keyin len d
      ((ri <<< (8 : Nat)) ||| next, d))
    (0, d)

/-- The key is mixed into P, and both tables are then encrypted in turn. -/
def initKey (bfInit : BlowfishKey) (keyin : Bytes) : BlowfishKey :=
  let len := (BitVec.ofNat 32 keyin.length).toInt
  let len : Int := if len > (bfRounds + 2) * 4 then (bfRounds + 2) * 4 else len
  let (p, _) := (List.range (bfRounds + 2)).foldl
    (fun (p, d) i =>
      let (ri, d) := nextKeyWord keyin len d
      (p.setIfInBounds i (p.getD i 0 ^^^ ri), d))
    (bfInit.P, 0)
  let (fKey, data) := (List.range ((bfRounds + 2) / 2)).foldl
    (fun (fKey, data) i =>
      let data := bfEncrypt fKey data
      ({ fKey with
          P := (fKey.P.setIfInBounds (2 * i) data.1).setIfInBounds (2 * i + 1) data.2 }, data))
    (({ bfInit with P := p } : BlowfishKey), ((0, 0) : BFLong × BFLong))
  ((List.range (4 * 256 / 2)).foldl
    (fun (fKey, data) i =>
      let data := bfEncrypt fKey data
      ({ fKey with
          S := (fKey.S.setIfInBounds (2 * i) data.1).setIfInBounds (2 * i + 1) data.2 }, data))
    (fKey, data)).1

def doEncode (fKey : BlowfishKey) (cleartext : Bytes) : Bytes :=
  let scrambledText := padToBlockSize cleartext
  doECBMultipleBlockEncrypt fKey scrambledText scrambledText.length

def doDecode (fKey : BlowfishKey) (scrambledText : Bytes) : Bool × Bytes :=
  match doECBMultipleBlockDecrypt fKey scrambledText scrambledText.length with
  | (true, cleartext) => unPad cleartext
  | (false, cleartext) => (false, cleartext)

def doBlowfishEncryptCBC (fKey : BlowfishKey) (fIvec : BFLong × BFLong) (padded : Bytes) : Bytes :=
  cbcEncryptBlocks fKey (padded.length / bfBlock) fIvec padded

def doBlowfishDecryptCBC (fKey : BlowfishKey) (fIvec : BFLong × BFLong)
    (padded : Bytes) : Bool × Bytes :=
  if padded.length % bfBlock ≠ 0 then (false, padded)
  else (true, cbcDecryptBlocks fKey (padded.length / bfBlock) fIvec padded)

def doEncodeCBCWith (fKey : BlowfishKey) (fIvec : BFLong × BFLong)
    (random cleartext : Bytes) : Bytes :=
  doBlowfishEncryptCBC fKey fIvec (padInFront random cleartext)

def doEncodeCBC (fKey : BlowfishKey) (fIvec : BFLong × BFLong)
    (nextRandomNumber : Nat → BitVec 64) (cleartext : Bytes) : Bytes :=
  doEncodeCBCWith fKey fIvec (generateRandomString nextRandomNumber (padCount cleartext.length))
    cleartext

def doDecodeCBC (fKey : BlowfishKey) (fIvec : BFLong × BFLong)
    (scrambledText : Bytes) : Bool × Bytes :=
  match doBlowfishDecryptCBC fKey fIvec scrambledText with
  | (true, cleartext) => unPadInFront cleartext
  | (false, cleartext) => (false, cleartext)

theorem doDecode_doEncode (fKey : BlowfishKey) (cleartext : Bytes) :
    doDecode fKey (doEncode fKey cleartext) = (true, cleartext) := by
  have aligned : (padToBlockSize cleartext).length % 2 ^ 32 % bfBlock = 0 := by
    have bounds := padCount_bounds cleartext.length
    rw [length_padToBlockSize]
    unfold bfBlock
    omega
  unfold doDecode doEncode doECBMultipleBlockEncrypt doECBMultipleBlockDecrypt
  simp only [aligned, ne_eq, not_true_eq_false, if_false, ecbBlocks_length,
    ecbBlocks_decrypt_encrypt, unPad_padToBlockSize]

theorem doDecodeCBC_doEncodeCBCWith (fKey : BlowfishKey) (fIvec : BFLong × BFLong)
    (random cleartext : Bytes) (length : random.length = padCount cleartext.length) :
    doDecodeCBC fKey fIvec (doEncodeCBCWith fKey fIvec random cleartext) = (true, cleartext) := by
  have aligned : (padInFront random cleartext).length % bfBlock = 0 := by
    have bounds := padCount_bounds cleartext.length
    rw [length_padInFront, length]
    unfold bfBlock
    omega
  unfold doDecodeCBC doEncodeCBCWith doBlowfishEncryptCBC doBlowfishDecryptCBC
  simp only [cbcEncryptBlocks_length, aligned, ne_eq, not_true_eq_false, if_false,
    cbcDecryptBlocks_encrypt, unPadInFront_padInFront random cleartext length]

end

/-- Decryption inverts encryption on every pair of 32-bit words, and decoding
inverts encoding for both scramblers, for every content of the key tables,
every initial vector and every choice of the padding characters.  The last
two parts are the scramblers as they are set up: with the tables of a key
string and the padding of the random generator. -/
theorem blowfishInverts :
    (∀ (fKey : BlowfishKey) (l r : BitVec 32),
      bfDecrypt fKey (bfEncrypt fKey (l.setWidth 64, r.setWidth 64)) =
        (l.setWidth 64, r.setWidth 64)) ∧
    (∀ (fKey : BlowfishKey) (cleartext : Bytes),
      doDecode fKey (doEncode fKey cleartext) = (true, cleartext)) ∧
    (∀ (fKey : BlowfishKey) (fIvec : BFLong × BFLong) (cleartext : Bytes)
      (random : Vector Byte (padCount cleartext.length)),
      doDecodeCBC fKey fIvec
        (doEncodeCBCWith fKey fIvec random.toList cleartext) = (true, cleartext)) ∧
    (∀ (bfInit : BlowfishKey) (keyin cleartext : Bytes), doDecode (initKey bfInit keyin)
        (doEncode (initKey bfInit keyin) cleartext) = (true, cleartext)) ∧
    (∀ (bfInit : BlowfishKey) (keyin : Bytes) (fIvec : BFLong × BFLong)
      (nextRandomNumber : Nat → BitVec 64) (cleartext : Bytes),
      doDecodeCBC (initKey bfInit keyin) fIvec
        (doEncodeCBC (initKey bfInit keyin) fIvec
          nextRandomNumber cleartext) = (true, cleartext)) := by
  refine ⟨?_, doDecode_doEncode, ?_, ?_, ?_⟩
  · intro fKey l r
    have wide : ∀ a : BitVec 32, a.setWidth 64 &&& longMask = a.setWidth 64 := by
      intro a
      apply BitVec.eq_of_getLsbD_eq
      intro i bound
      rw [BitVec.getLsbD_and, getLsbD_longMask i bound]
      by_cases small : i < 32
      · simp [small]
      · simp [small, BitVec.getLsbD_of_ge a i (by omega)]
    rw [bfDecrypt_bfEncrypt, wide, wide]
  · intro fKey fIvec cleartext random
    exact doDecodeCBC_doEncodeCBCWith fKey fIvec _ cleartext random.length_toList
  · intro bfInit keyin cleartext
    exact doDecode_doEncode _ cleartext
  · intro bfInit keyin fIvec nextRandomNumber cleartext
    exact doDecodeCBC_doEncodeCBCWith _ fIvec _ cleartext
      (length_generateRandomString nextRandomNumber _)

end Coast.Security.Blowfish
