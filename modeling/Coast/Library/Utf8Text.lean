import Mathlib.Data.List.Basic

/-!
# Well-formed UTF-8

The sequences of octets that stand for a character, and the texts of
characters.
-/

namespace Coast.Utf8Text

abbrev Octet : Type := BitVec 8

def Trail (b : Octet) : Prop := 0x80 ≤ b.toNat ∧ b.toNat < 0xc0

/-- The sequence of a character.  The bounds of the second octet keep out the
overlong sequences, the surrogates and what is above the last code point. -/
inductive Sequence : List Octet → Prop where
  | one {a : Octet} : a.toNat < 0x80 → Sequence [a]
  | two {a b : Octet} : 0xc2 ≤ a.toNat → a.toNat < 0xe0 → Trail b → Sequence [a, b]
  | three {a b c : Octet} : 0xe0 ≤ a.toNat → a.toNat < 0xf0 →
      (a.toNat = 0xe0 → 0xa0 ≤ b.toNat) → (a.toNat = 0xed → b.toNat < 0xa0) →
        Trail b → Trail c → Sequence [a, b, c]
  | four {a b c d : Octet} : 0xf0 ≤ a.toNat → a.toNat < 0xf5 →
      (a.toNat = 0xf0 → 0x90 ≤ b.toNat) → (a.toNat = 0xf4 → b.toNat < 0x90) →
        Trail b → Trail c → Trail d → Sequence [a, b, c, d]

/-- A text of so many encoded characters. -/
inductive Text : List Octet → Nat → Prop where
  | nil : Text [] 0
  | cons {sequence rest : List Octet} {n : Nat} : Sequence sequence →
      Text rest n → Text (sequence ++ rest) (n + 1)

theorem Sequence.length_pos {sequence : List Octet}
    (isSequence : Sequence sequence) : 0 < sequence.length := by
  cases isSequence <;> exact Nat.succ_pos _

theorem Text.le_length {text : List Octet} {n : Nat} (isText : Text text n) : n ≤ text.length := by
  induction isText with
  | nil => exact Nat.le_refl _
  | cons isSequence _ ih =>
    have length := isSequence.length_pos
    rw [List.length_append]
    omega

theorem text_of_ascii {text : List Octet}
    (ascii : ∀ b ∈ text, b.toNat < 0x80) : Text text text.length := by
  induction text with
  | nil => exact .nil
  | cons b text ih =>
    rw [List.forall_mem_cons] at ascii
    exact .cons (.one ascii.1) (ih ascii.2)

end Coast.Utf8Text
