import Mathlib.Tactic.Common

/-!
# Leap years

How many years before a given one were leap years is found by division, and it
is about 97 in 400 years.
-/

namespace Coast.Calendar

def isLeap (year : Int) : Bool := year % 4 = 0 && (year % 100 ≠ 0 || year % 400 = 0)

def leapsBefore (year : Int) : Int := (year - 1) / 4 - (year - 1) / 100 + (year - 1) / 400

theorem isLeap_iff (year : Int) :
    isLeap year = true ↔ year % 4 = 0 ∧ (year % 100 ≠ 0 ∨ year % 400 = 0) := by
  rw [isLeap, Bool.and_eq_true, Bool.or_eq_true, decide_eq_true_eq,
    decide_eq_true_eq, decide_eq_true_eq]

theorem leapsBefore_succ (year : Int) :
    leapsBefore (year + 1) = leapsBefore year + if isLeap year then 1 else 0 := by
  by_cases leap : isLeap year = true
  · rw [if_pos leap]
    rw [isLeap_iff] at leap
    simp only [leapsBefore]
    omega
  · rw [if_neg leap]
    rw [isLeap_iff] at leap
    simp only [leapsBefore]
    omega

theorem leapsBefore_lower (year : Int) : 97 * year - 691 ≤ 400 * leapsBefore year := by
  simp only [leapsBefore]
  omega

theorem leapsBefore_upper (year : Int) : 400 * leapsBefore year ≤ 97 * year + 302 := by
  simp only [leapsBefore]
  omega

end Coast.Calendar
