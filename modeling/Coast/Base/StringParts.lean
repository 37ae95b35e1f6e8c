import Coast.Base.Bytes
import Mathlib.Data.List.GetD

/-!
# Parts of a String

`String::SubString`, `String::TrimFront`, `String::Trim` and the index operator
on the text of a String.
-/

namespace Coast

open List

def subStringFrom (s : Bytes) (start len : Int) : Bytes :=
  if s.length ≤ start then []
  else
    let start := if start < 0 then 0 else start
    let len := if len < 0 || s.length < start + len then s.length - start else len
    (s.drop start.toNat).take len.toNat

def trimFront (s : Bytes) (newstart : Int) : Bytes :=
  if 0 ≤ newstart ∧ newstart < s.length then s.drop newstart.toNat
  else if s.length ≤ newstart then []
  else s

def trim (s : Bytes) (newlen : Int) : Bytes := if newlen ≤ s.length then s.take newlen.toNat else s

/-- `String::operator[]` of a String that is not constant: the character, and
the text.  At the length it is the NUL behind the text; for a place behind
that the text grows, with NULs. -/
def operatorAt (s : Bytes) (x : Int) : Byte × Bytes :=
  if s = [] then (0, [])
  else if s.length < x then
    (0, s ++ List.replicate (x.toNat + 1 - s.length) 0)
  else (s.getD x.toNat 0, s)

theorem subStringFrom_rest (s : Bytes) (p : Nat) : subStringFrom s p (-1) = s.drop p := by
  rw [subStringFrom]
  split
  · exact (drop_eq_nil_of_le (by omega)).symm
  · have start : ¬(p : Int) < 0 := by omega
    dsimp only
    rw [if_neg start, decide_eq_true (by decide), Bool.true_or, if_pos rfl, Int.toNat_natCast]
    apply take_of_length_le
    rw [length_drop]
    omega

theorem subStringFrom_part {s : Bytes} {p n : Nat} (inside : p + n ≤ s.length) :
    subStringFrom s p n = (s.drop p).take n := by
  rw [subStringFrom]
  split
  · obtain rfl : n = 0 := by omega
    rfl
  · have start : ¬(p : Int) < 0 := by omega
    have fits : (decide ((n : Int) < 0) || decide ((s.length : Int) < p + n)) = false := by
      rw [decide_eq_false (by omega), decide_eq_false (by omega)]
      rfl
    dsimp only
    rw [if_neg start, fits, if_neg Bool.false_ne_true, Int.toNat_natCast, Int.toNat_natCast]

theorem subStringFrom_take (s : Bytes) (n : Nat) (inside : n ≤ s.length) :
    subStringFrom s 0 n = s.take n :=
  subStringFrom_part ((Nat.zero_add n).symm ▸ inside)

theorem trimFront_nat (s : Bytes) (n : Nat) : trimFront s n = s.drop n := by
  rw [trimFront]
  split
  · rw [Int.toNat_natCast]
  · rename_i outside
    rw [if_pos (by omega)]
    exact (drop_eq_nil_of_le (by omega)).symm

theorem trim_nat (s : Bytes) (n : Nat) : trim s n = s.take n := by
  rw [trim]
  split
  · rw [Int.toNat_natCast]
  · exact (take_of_length_le (by omega)).symm

theorem operatorAt_inside {s : Bytes} {x : Int} (inside : x ≤ s.length) :
    operatorAt s x = (s.getD x.toNat 0, s) := by
  rw [operatorAt]
  split
  · rename_i empty
    rw [empty, getD_nil]
  · rw [if_neg (by omega)]

theorem operatorAt_front (front : Bytes) (c : Byte) (rest : Bytes) :
    operatorAt (front ++ c :: rest) front.length = (c, front ++ c :: rest) := by
  rw [operatorAt_inside, Int.toNat_natCast, getD_append_right _ _ _ _ (Nat.le_refl _), Nat.sub_self,
    getD_cons_zero]
  rw [length_append]
  omega

theorem operatorAt_end (s : Bytes) : operatorAt s s.length = (0, s) := by
  rw [operatorAt_inside (Int.le_refl _), Int.toNat_natCast, getD_eq_default _ _ (Nat.le_refl _)]

end Coast
