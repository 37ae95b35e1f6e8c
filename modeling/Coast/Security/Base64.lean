import Coast.Base.Bytes

/-!
# Base64

The encoder writes three bytes as four characters of a basis; both bases are
read with one table, so they differ in what is written only.
-/

namespace Coast.Security.Base64

def xx : Byte := 127

/-- The rows of `index_64` below 128; above there is `XX` only. -/
def index64 : List Byte := [
  xx, xx, xx, xx, xx, xx, xx, xx, xx, xx, xx, xx, xx, xx, xx, xx,
  xx, xx, xx, xx, xx, xx, xx, xx, xx, xx, xx, xx, xx, xx, xx, xx,
  xx, xx, xx, xx, 63, xx, xx, xx, xx, xx, xx, 62, xx, 62, xx, 63,
  52, 53, 54, 55, 56, 57, 58, 59, 60, 61, xx, xx, xx, xx, xx, xx,
  xx, 0, 1, 2, 3, 4, 5, 6, 7, 8, 9, 10, 11, 12, 13, 14,
  15, 16, 17, 18, 19, 20, 21, 22, 23, 24, 25, xx, xx, xx, xx, xx,
  xx, 26, 27, 28, 29, 30, 31, 32, 33, 34, 35, 36, 37, 38, 39, 40,
  41, 42, 43, 44, 45, 46, 47, 48, 49, 50, 51, xx, xx, xx, xx, xx]

def char64 (c : Byte) : Byte := index64.getD c.toNat xx

/-- What `DoGetBasis` returns: characters that the table reads back. -/
structure Basis where
  chars : Bytes
  reads : ∀ sextet : Byte, sextet < 64 →
    char64 (chars.getD sextet.toNat 0) = sextet ∧ chars.getD sextet.toNat 0 ≠ ch '='

def basis64Wd : Basis where
  chars := lit "ABCDEFGHIJKLMNOPQRSTUVWXYZabcdefghijklmnopqrstuvwxyz0123456789-$"
  reads := by decide +kernel

/-- `basis_64_orig`, which `Base64Regular` uses. -/
def basis64Orig : Basis where
  chars := lit "ABCDEFGHIJKLMNOPQRSTUVWXYZabcdefghijklmnopqrstuvwxyz0123456789+/"
  reads := by decide +kernel

def Basis.charAt (basis : Basis) (sextet : Byte) : Byte := basis.chars.getD sextet.toNat 0

/-- Three bytes become four characters; the rest is padded. -/
def doEncode (basis : Basis) : Bytes → Bytes
  | c1 :: c2 :: c3 :: str =>
    basis.charAt (c1 >>> 2) :: basis.charAt (((c1 &&& 0x3) <<< 4) ||| ((c2 &&& 0xF0) >>> 4)) ::
      basis.charAt (((c2 &&& 0xF) <<< 2) ||| ((c3 &&& 0xC0) >>> 6)) ::
      basis.charAt (c3 &&& 0x3F) :: doEncode basis str
  | [c1, c2] =>
    [basis.charAt (c1 >>> 2), basis.charAt (((c1 &&& 0x3) <<< 4) ||| ((c2 &&& 0xF0) >>> 4)),
      basis.charAt
        (((c2 &&& 0xF) <<< 2) ||| (((0 : Byte) &&& 0xC0) >>> 6)),
      ch '=']
  | [c1] =>
    [basis.charAt (c1 >>> 2), basis.charAt (((c1 &&& 0x3) <<< 4) ||| (((0 : Byte) &&& 0xF0) >>> 4)),
      ch '=', ch '=']
  | [] => []

/-- Four characters become up to three bytes. -/
def decodeBlock (cr1 cr2 cr3 cr4 : Byte) : Bytes :=
  let c1 := char64 cr1
  let c2 := char64 cr2
  let c3 := if cr3 = ch '=' then 0 else char64 cr3
  let c4 := if cr4 = ch '=' then 0 else char64 cr4
  ((c1 <<< 2) ||| ((c2 &&& 0x30) >>> 4)) :: if cr3 = ch '=' then []
    else
      (((c2 &&& 0x0F) <<< 4) ||| ((c3 &&& 0x3C) >>> 2)) ::
        if cr4 ≠ ch '=' then [((c3 &&& 0x03) <<< 6) ||| c4] else []

/-- `DoDecode`: the return value and the bytes.  A text whose length is no
multiple of four is decoded as far as there are blocks, and refused. -/
def doDecode : Bytes → Bool × Bytes
  | cr1 :: cr2 :: cr3 :: cr4 :: encStr =>
    let (aligned, str) := doDecode encStr
    (aligned, decodeBlock cr1 cr2 cr3 cr4 ++ str)
  | [] => (true, [])
  | _ => (false, [])

/-! ## Decoding what was encoded -/

section Bits

variable (c1 c2 c3 : Byte)

private theorem eq_of_bits {left right : Byte}
    (bits : ∀ i < 8, left.getLsbD i = right.getLsbD i) : left = right :=
  BitVec.eq_of_getLsbD_eq bits

private theorem bit_cases {i : Nat} (bound : i < 8) :
    i = 0 ∨ i = 1 ∨ i = 2 ∨ i = 3 ∨ i = 4 ∨ i = 5 ∨ i = 6 ∨ i = 7 := by
  omega

private theorem byte1 :
    ((c1 >>> 2) <<< 2) |||
      (((((c1 &&& 0x3) <<< 4) ||| ((c2 &&& 0xF0) >>> 4)) &&& 0x30) >>> 4) = c1 := by
  apply eq_of_bits
  intro i bound
  rcases bit_cases bound with rfl | rfl | rfl | rfl | rfl | rfl | rfl | rfl <;> simp

private theorem byte2 :
    (((((c1 &&& 0x3) <<< 4) ||| ((c2 &&& 0xF0) >>> 4)) &&& 0x0F) <<< 4) |||
      (((((c2 &&& 0xF) <<< 2) ||| ((c3 &&& 0xC0) >>> 6)) &&& 0x3C) >>> 2) = c2 := by
  apply eq_of_bits
  intro i bound
  rcases bit_cases bound with rfl | rfl | rfl | rfl | rfl | rfl | rfl | rfl <;> simp

private theorem byte3 :
    (((((c2 &&& 0xF) <<< 2) ||| ((c3 &&& 0xC0) >>> 6)) &&& 0x03) <<< 6) |||
      (c3 &&& 0x3F) = c3 := by
  apply eq_of_bits
  intro i bound
  rcases bit_cases bound with rfl | rfl | rfl | rfl | rfl | rfl | rfl | rfl <;> simp

private theorem or_lt {left right : Byte} (leftSmall : left < 64)
    (rightSmall : right < 64) : left ||| right < 64 := by
  rw [BitVec.lt_def] at *
  rw [BitVec.toNat_or]
  exact Nat.or_lt_two_pow (n := 6) leftSmall rightSmall

private theorem sextet1_lt : c1 >>> 2 < 64 := by
  revert c1
  decide +kernel

private theorem sextet2_lt : ((c1 &&& 0x3) <<< 4) ||| ((c2 &&& 0xF0) >>> 4) < 64 := by
  have high : ∀ c : Byte, (c &&& 0x3) <<< 4 < 64 := by decide +kernel
  have low : ∀ c : Byte, (c &&& 0xF0) >>> 4 < 64 := by decide +kernel
  exact or_lt (high c1) (low c2)

private theorem sextet3_lt : ((c2 &&& 0xF) <<< 2) ||| ((c3 &&& 0xC0) >>> 6) < 64 := by
  have high : ∀ c : Byte, (c &&& 0xF) <<< 2 < 64 := by decide +kernel
  have low : ∀ c : Byte, (c &&& 0xC0) >>> 6 < 64 := by decide +kernel
  exact or_lt (high c2) (low c3)

private theorem sextet4_lt : c3 &&& 0x3F < 64 := by
  revert c3
  decide +kernel

end Bits

namespace Basis

variable (basis : Basis) {sextet : Byte}

theorem char64_charAt (small : sextet < 64) : char64 (basis.charAt sextet) = sextet :=
  (basis.reads sextet small).1

theorem charAt_ne (small : sextet < 64) : basis.charAt sextet ≠ ch '=' :=
  (basis.reads sextet small).2

end Basis

variable (basis : Basis)

private theorem decodeBlock_two (c1 c2 : Byte) :
    decodeBlock (basis.charAt (c1 >>> 2))
      (basis.charAt (((c1 &&& 0x3) <<< 4) ||| ((c2 &&& 0xF0) >>> 4)))
      (basis.charAt (((c2 &&& 0xF) <<< 2) ||| (((0 : Byte) &&& 0xC0) >>> 6)))
      (ch '=') = [c1, c2] := by
  have third := basis.charAt_ne (sextet3_lt c2 0)
  simp only [decodeBlock, third, basis.char64_charAt (sextet1_lt c1),
    basis.char64_charAt (sextet2_lt c1 c2), basis.char64_charAt (sextet3_lt c2 0), byte1, byte2,
    if_false, ne_eq, not_true_eq_false]

private theorem decodeBlock_one (c1 : Byte) :
    decodeBlock (basis.charAt (c1 >>> 2))
      (basis.charAt (((c1 &&& 0x3) <<< 4) ||| (((0 : Byte) &&& 0xF0) >>> 4)))
      (ch '=') (ch '=') = [c1] := by
  simp only [decodeBlock, basis.char64_charAt (sextet1_lt c1),
    basis.char64_charAt (sextet2_lt c1 0), byte1, if_true]

private theorem decodeBlock_three (c1 c2 c3 : Byte) :
    decodeBlock (basis.charAt (c1 >>> 2))
      (basis.charAt (((c1 &&& 0x3) <<< 4) ||| ((c2 &&& 0xF0) >>> 4)))
      (basis.charAt (((c2 &&& 0xF) <<< 2) ||| ((c3 &&& 0xC0) >>> 6)))
      (basis.charAt (c3 &&& 0x3F)) = [c1, c2, c3] := by
  have third := basis.charAt_ne (sextet3_lt c2 c3)
  have fourth := basis.charAt_ne (sextet4_lt c3)
  simp only [decodeBlock, third, fourth, basis.char64_charAt (sextet1_lt c1),
    basis.char64_charAt (sextet2_lt c1 c2), basis.char64_charAt (sextet3_lt c2 c3),
    basis.char64_charAt (sextet4_lt c3), byte1, byte2, byte3, if_false, ne_eq, not_false_eq_true,
    if_true]

theorem doDecode_doEncode (str : Bytes) : doDecode (doEncode basis str) = (true, str) := by
  fun_induction doEncode basis str with
  | case1 c1 c2 c3 str ih =>
    rw [doDecode, ih, decodeBlock_three]
    rfl
  | case2 c1 c2 =>
    rw [doDecode, doDecode, decodeBlock_two]
    rfl
  | case3 c1 =>
    rw [doDecode, doDecode, decodeBlock_one]
    rfl
  | case4 => rw [doDecode]

/-- Every text is decoded from what it is encoded to, with either basis. -/
theorem doDecode_doEncode_bases (str : Bytes) :
    doDecode (doEncode basis64Orig str) = (true, str) ∧
      doDecode (doEncode basis64Wd str) = (true, str) :=
  ⟨doDecode_doEncode basis64Orig str, doDecode_doEncode basis64Wd str⟩

end Coast.Security.Base64
