import Mathlib.Data.List.TakeWhile

/-!
# Bytes and the character classes of the C locale

A `String` of the library is a counted buffer of bytes, so it is modelled by
the list of its bytes.  A C string is the part of a buffer before its first
NUL.
-/

namespace Coast

abbrev Byte := BitVec 8

/-- The contents of a `String` object. -/
abbrev Bytes := List Byte

def ch (c : Char) : Byte := BitVec.ofNat 8 c.toNat

def lit (text : String) : Bytes := text.toList.map ch

def isdigit (c : Byte) : Bool := ch '0' ≤ c && c ≤ ch '9'

def isspace (c : Byte) : Bool := c = ch ' ' || (ch '\t' ≤ c && c ≤ ch '\r')

def isxdigit (c : Byte) : Bool :=
  isdigit c || (ch 'a' ≤ c && c ≤ ch 'f') || (ch 'A' ≤ c && c ≤ ch 'F')

def isalpha (c : Byte) : Bool := (ch 'a' ≤ c && c ≤ ch 'z') || (ch 'A' ≤ c && c ≤ ch 'Z')

def isalnum (c : Byte) : Bool := isalpha c || isdigit c

def isprint (c : Byte) : Bool := ch ' ' ≤ c && c ≤ ch '~'

def toupper (c : Byte) : Byte := if ch 'a' ≤ c && c ≤ ch 'z' then c - 32 else c

/-- What a `const char *` into the buffer shows: the bytes before the first
NUL. -/
def cstr (s : Bytes) : Bytes := s.takeWhile (· ≠ 0)

def isEqual (text other : Bytes) : Bool := cstr text = cstr other

instance decidableMem (c : Byte) (s : Bytes) : Decidable (c ∈ s) :=
  List.instDecidableMemOfLawfulBEq c s

/-- A buffer that a `const char *` shows completely. -/
def NulFree (s : Bytes) : Prop := (0 : Byte) ∉ s

instance (s : Bytes) : Decidable (NulFree s) := inferInstanceAs (Decidable (_ ∉ _))

theorem cstr_of_nulFree {s : Bytes} (nulFree : NulFree s) : cstr s = s := by
  unfold cstr
  rw [List.takeWhile_eq_self_iff]
  intro c member
  simpa using fun (zero : c = 0) => nulFree (zero ▸ member)

theorem cstr_append_of_nulFree {s : Bytes} (nulFree : NulFree s)
    (rest : Bytes) : cstr (s ++ rest) = s ++ cstr rest := by
  apply List.takeWhile_append_of_pos
  intro c member
  simpa using fun (zero : c = 0) => nulFree (zero ▸ member)

theorem nulFree_cstr (text : Bytes) : NulFree (cstr text) := by
  intro member
  have passed := List.mem_takeWhile_imp member
  simp at passed

def hexDigit (n : Nat) : Byte := (lit "0123456789ABCDEF").getD n 0

def appendAsHex (c : Byte) : Bytes := [hexDigit (c.toNat / 16), hexDigit (c.toNat % 16)]

end Coast
