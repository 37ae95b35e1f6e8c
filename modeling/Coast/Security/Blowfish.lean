import Mathlib.Tactic.IntervalCases
import Coast.Base.Bytes
import Coast.Library.Feistel

/-!
# The Blowfish scramblers

`BF_LONG` is `unsigned long`, 64 bits wide here, so the registers of the
cipher carry 32 meaningful bits and garbage above them.  The table words are
read through byte offsets, as the `BF_PTR` form of `BF_ENC` does.
-/

namespace Coast.Security

abbrev BFLong := BitVec 64

structure BlowfishKey where
  P : Vector BFLong 18
  S : Vector BFLong 1024

namespace Blowfish

def bfRounds : Nat := 16
def bfBlock : Nat := 8

def bfMask : BFLong := 0x3fc

def longMask : BFLong := 0xffffffff

def sByte (s : Vector BFLong 1024) (address : Nat) : Byte :=
  (s.getD (address / 8) 0 >>> (8 * (address % 8))).setWidth 8

def loadLong (s : Vector BFLong 1024) (address : Nat) : BFLong :=
  sByte s (address + 7) ++ sByte s (address + 6) ++
    sByte s (address + 5) ++ sByte s (address + 4) ++
    sByte s (address + 3) ++ sByte s (address + 2) ++
    sByte s (address + 1) ++ sByte s address

def bfTable (s : Vector BFLong 1024) (r : BFLong) : BFLong :=
  ((loadLong s (8 * 0 + ((r >>> 22) &&& bfMask).toNat) +
      loadLong s (8 * 256 + ((r >>> 14) &&& bfMask).toNat)) ^^^
    loadLong s (8 * 512 + ((r >>> 6) &&& bfMask).toNat)) +
    loadLong s (8 * 768 + ((r <<< (2 : Nat)) &&& bfMask).toNat)

def bfEnc (ll r : BFLong) (s : Vector BFLong 1024) (p : BFLong) : BFLong :=
  let ll := ll ^^^ p
  ll ^^^ bfTable s r

/-- Sixteen rounds over the two halves, as the macros write them out. -/
def bfEncrypt (fKey : BlowfishKey) (data : BFLong × BFLong) : BFLong × BFLong :=
  let p := fKey.P
  let s := fKey.S
  let l := data.1
  let r := data.2
  let l := l ^^^ p[0]
  let r := bfEnc r l s p[1]
  let l := bfEnc l r s p[2]
  let r := bfEnc r l s p[3]
  let l := bfEnc l r s p[4]
  let r := bfEnc r l s p[5]
  let l := bfEnc l r s p[6]
  let r := bfEnc r l s p[7]
  let l := bfEnc l r s p[8]
  let r := bfEnc r l s p[9]
  let l := bfEnc l r s p[10]
  let r := bfEnc r l s p[11]
  let l := bfEnc l r s p[12]
  let r := bfEnc r l s p[13]
  let l := bfEnc l r s p[14]
  let r := bfEnc r l s p[15]
  let l := bfEnc l r s p[16]
  let r := r ^^^ p[17]
  (r &&& longMask, l &&& longMask)

/-- The rounds in reverse order. -/
def bfDecrypt (fKey : BlowfishKey) (data : BFLong × BFLong) : BFLong × BFLong :=
  let p := fKey.P
  let s := fKey.S
  let l := data.1
  let r := data.2
  let l := l ^^^ p[17]
  let r := bfEnc r l s p[16]
  let l := bfEnc l r s p[15]
  let r := bfEnc r l s p[14]
  let l := bfEnc l r s p[13]
  let r := bfEnc r l s p[12]
  let l := bfEnc l r s p[11]
  let r := bfEnc r l s p[10]
  let l := bfEnc l r s p[9]
  let r := bfEnc r l s p[8]
  let l := bfEnc l r s p[7]
  let r := bfEnc r l s p[6]
  let l := bfEnc l r s p[5]
  let r := bfEnc r l s p[4]
  let l := bfEnc l r s p[3]
  let r := bfEnc r l s p[2]
  let l := bfEnc l r s p[1]
  let r := r ^^^ p[0]
  (r &&& longMask, l &&& longMask)

/-! ## The cipher as a Feistel network -/

def low (a : BFLong) : BitVec 32 := a.setWidth 32

def roundMix (s : Vector BFLong 1024) (key a : BFLong) : BFLong := key ^^^ bfTable s a

def lowRoundMix (s : Vector BFLong 1024) (key : BFLong) (a : BitVec 32) : BitVec 32 :=
  low (roundMix s key (a.setWidth 64))

def roundKeys (fKey : BlowfishKey) : List BFLong :=
  [fKey.P[1], fKey.P[2], fKey.P[3], fKey.P[4], fKey.P[5], fKey.P[6], fKey.P[7], fKey.P[8],
    fKey.P[9], fKey.P[10], fKey.P[11], fKey.P[12],
    fKey.P[13], fKey.P[14], fKey.P[15], fKey.P[16]]

theorem xor_xor_cancel {n : Nat} (a b : BitVec n) : a ^^^ b ^^^ b = a := by
  rw [BitVec.xor_assoc, BitVec.xor_self, BitVec.xor_zero]

theorem xorCancels (n : Nat) : Feistel.Cancels (fun a b : BitVec n => a ^^^ b) := xor_xor_cancel

theorem low_xor (a b : BFLong) : low (a ^^^ b) = low a ^^^ low b := BitVec.setWidth_xor

theorem getLsbD_longMask (i : Nat) (bound : i < 64) : longMask.getLsbD i = decide (i < 32) := by
  unfold longMask
  interval_cases i <;> rfl

private theorem getLsbD_bfMask (i : Nat) (bound : i < 64) :
    bfMask.getLsbD i = decide (2 ≤ i ∧ i < 10) := by
  unfold bfMask
  interval_cases i <;> rfl

theorem low_and_mask (a : BFLong) : low (a &&& longMask) = low a := by
  apply BitVec.eq_of_getLsbD_eq
  intro i bound
  unfold low
  rw [BitVec.getLsbD_setWidth, BitVec.getLsbD_setWidth, BitVec.getLsbD_and,
    getLsbD_longMask i (by omega)]
  simp [bound]

theorem and_mask_of_low_eq {a b : BFLong} (same : low a = low b) :
    a &&& longMask = b &&& longMask := by
  apply BitVec.eq_of_getLsbD_eq
  intro i bound
  rw [BitVec.getLsbD_and, BitVec.getLsbD_and, getLsbD_longMask i bound]
  by_cases small : i < 32
  · have bit := congrArg (fun x : BitVec 32 => x.getLsbD i) same
    simp only [low, BitVec.getLsbD_setWidth, small, decide_true, Bool.true_and] at bit
    rw [bit]
  · simp [small]

private theorem shift_mask_low (r : BFLong) (shift : Nat) (bounded : shift ≤ 22) :
    (r >>> shift) &&& bfMask = (((low r).setWidth 64) >>> shift) &&& bfMask := by
  apply BitVec.eq_of_getLsbD_eq
  intro i bound
  rw [BitVec.getLsbD_and, BitVec.getLsbD_and, getLsbD_bfMask i bound]
  by_cases small : i < 10
  · have inLow : shift + i < 32 := by omega
    have inLong : shift + i < 64 := by omega
    simp [low, inLow, inLong]
  · simp [small]

private theorem shiftLeft_mask_low (r : BFLong) :
    (r <<< (2 : Nat)) &&& bfMask = (((low r).setWidth 64) <<< (2 : Nat)) &&& bfMask := by
  apply BitVec.eq_of_getLsbD_eq
  intro i bound
  rw [BitVec.getLsbD_and, BitVec.getLsbD_and, getLsbD_bfMask i bound]
  by_cases small : i < 10
  · have inLow : i - 2 < 32 := by omega
    have inLong : i - 2 < 64 := by omega
    simp [low, inLow, inLong]
  · simp [small]

theorem bfTable_low (s : Vector BFLong 1024) (r : BFLong) :
    bfTable s r = bfTable s ((low r).setWidth 64) := by
  unfold bfTable
  rw [shift_mask_low r 22 (by decide), shift_mask_low r 14 (by decide),
    shift_mask_low r 6 (by decide), shiftLeft_mask_low r]

theorem low_roundMix (s : Vector BFLong 1024) (key a : BFLong) :
    low (roundMix s key a) = lowRoundMix s key (low a) := by
  unfold lowRoundMix roundMix
  rw [low_xor, low_xor, bfTable_low]

variable (fKey : BlowfishKey)
include fKey

theorem bfEncrypt_eq_run (data : BFLong × BFLong) :
    bfEncrypt fKey data =
      (let final := Feistel.run (· ^^^ ·) (roundMix fKey.S)
        (roundKeys fKey) (data.1 ^^^ fKey.P[0], data.2)
      ((final.2 ^^^ fKey.P[17]) &&& longMask, final.1 &&& longMask)) := by
  simp only [bfEncrypt, bfEnc, roundKeys, Feistel.run_cons,
    Feistel.run_nil, Feistel.step, roundMix, BitVec.xor_assoc]

theorem bfDecrypt_eq_run (data : BFLong × BFLong) :
    bfDecrypt fKey data =
      (let final := Feistel.run (· ^^^ ·) (roundMix fKey.S)
        (roundKeys fKey).reverse (data.1 ^^^ fKey.P[17], data.2)
      ((final.2 ^^^ fKey.P[0]) &&& longMask, final.1 &&& longMask)) := by
  simp only [bfDecrypt, bfEnc, roundKeys, List.reverse_cons, List.reverse_nil, List.nil_append,
    List.cons_append, Feistel.run_cons, Feistel.run_nil, Feistel.step, roundMix, BitVec.xor_assoc]

theorem bfDecrypt_bfEncrypt (data : BFLong × BFLong) :
    bfDecrypt fKey (bfEncrypt fKey data) = (data.1 &&& longMask, data.2 &&& longMask) := by
  let lows : BFLong × BFLong → BitVec 32 × BitVec 32 := Prod.map low low
  let lowRun := Feistel.run (fun a b : BitVec 32 => a ^^^ b) (lowRoundMix fKey.S)
  have project : ∀ keys block,
      lows (Feistel.run (· ^^^ ·) (roundMix fKey.S) keys block) = lowRun keys (lows block) :=
    Feistel.run_map low_xor (low_roundMix fKey.S)
  have undo : ∀ keys block, lowRun keys.reverse (lowRun keys block).swap = block.swap :=
    Feistel.run_reverse_swap_run _ _ (xorCancels 32)
  let start : BFLong × BFLong := (data.1 ^^^ fKey.P[0], data.2)
  let middle := Feistel.run (· ^^^ ·) (roundMix fKey.S) (roundKeys fKey) start
  let back : BFLong × BFLong :=
    (((middle.2 ^^^ fKey.P[17]) &&& longMask) ^^^ fKey.P[17], middle.1 &&& longMask)
  have backLows : lows back = (lows middle).swap := by
    simp only [lows, back, Prod.map, Prod.swap_prod_mk, low_xor, low_and_mask]
    rw [xor_xor_cancel]
  have final : lows (Feistel.run (· ^^^ ·) (roundMix fKey.S)
      (roundKeys fKey).reverse back) = (lows start).swap := by
    rw [project, backLows, project, undo]
  rw [bfEncrypt_eq_run, bfDecrypt_eq_run]
  have firstLow := congrArg Prod.fst final
  have secondLow := congrArg Prod.snd final
  apply Prod.ext
  · apply and_mask_of_low_eq
    rw [low_xor]
    refine (congrArg (· ^^^ low fKey.P[0]) secondLow).trans ?_
    change low (data.1 ^^^ fKey.P[0]) ^^^ low fKey.P[0] = low data.1
    rw [low_xor]
    exact xor_xor_cancel _ _
  · exact and_mask_of_low_eq firstLow

end Blowfish

end Coast.Security
