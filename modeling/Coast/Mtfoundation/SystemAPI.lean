import Mathlib.Algebra.Ring.Int.Defs
import Mathlib.Algebra.Ring.Nat

/-!
# Absolute timeouts and counts of semaphores

A timed wait on a condition gets the time at which it ends.  A `long` has 64
bits, an `unsigned` has 32.
-/

namespace Coast.SystemAPI

def oneSecond : Int := 1000 * 1000 * 1000

def longOf (n : Int) : Int := (n + 2 ^ 63) % 2 ^ 64 - 2 ^ 63

/-- The count of a semaphore that is made with an `unsigned`, if there is one:
`sem_init` refuses counts from `2 ^ 31` on. -/
def createSema (i_nCount : Nat) : Option Nat :=
  if i_nCount % 2 ^ 32 < 2 ^ 31 then some (i_nCount % 2 ^ 32) else none

theorem createSema_of_lt {i_nCount : Nat} (small : i_nCount < 2 ^ 31) :
    createSema i_nCount = some i_nCount := by
  have same : i_nCount % 2 ^ 32 = i_nCount := Nat.mod_eq_of_lt (by omega)
  rw [createSema, same, if_pos small]

structure Timeval where
  tvSec : Int
  tvUsec : Int
  secLow : -2 ^ 63 ≤ tvSec
  secHigh : tvSec < 2 ^ 63
  usecLow : 0 ≤ tvUsec
  usecHigh : tvUsec < 1000000

/-- A relative timeout: two values of a `long` that are not negative. -/
structure Timeout where
  s : Int
  n : Int
  sLow : 0 ≤ s
  sHigh : s < 2 ^ 63
  nLow : 0 ≤ n
  nHigh : n < 2 ^ 63

/-- Whole seconds are carried over. -/
def carryLoop (s n : Int) : Int × Int :=
  if n > oneSecond then carryLoop (longOf (s + 1)) (n - oneSecond)
  else (s, n)
termination_by n.toNat
decreasing_by
  rw [oneSecond] at *
  omega

/-- `AdjustTimeToAbsolut`, with what `gettimeofday` gives, or `time` if it
fails. -/
def adjustTimeToAbsolut (timeofday : Option Timeval) (time s n : Int) : Int × Int :=
  match timeofday with
  | some tv => carryLoop (longOf (s + tv.tvSec)) (longOf (n + tv.tvUsec * 1000))
  | none => carryLoop (longOf (s + time)) n

theorem carryLoop_of_le {s n : Int} (small : n ≤ oneSecond) : carryLoop s n = (s, n) := by
  rw [carryLoop, if_neg (by omega)]

theorem carryLoop_of_pos (s n : Int) : 0 < n → ∀ s', s = longOf s' →
    carryLoop s n = (longOf (s' + (n - 1) / oneSecond), n - (n - 1) / oneSecond * oneSecond) := by
  fun_induction carryLoop s n with
  | case1 s n more ih =>
    intro positive s' same
    rw [ih (by omega) (s' + 1) (by rw [same, longOf, longOf, longOf]; omega)]
    rw [oneSecond] at more ⊢
    congr 1
    · congr 1
      omega
    · omega
  | case2 s n small =>
    intro positive s' same
    have none : (n - 1) / oneSecond = 0 := by
      rw [oneSecond] at small ⊢
      omega
    rw [none, same, Int.add_zero, Int.zero_mul, Int.sub_zero]

/-- The time is normalised, and it is the sum of the current time and the
timeout. -/
def Absolute (tv : Timeval) (timeout : Timeout) (t : Int × Int) : Prop :=
  0 ≤ t.2 ∧ t.2 < oneSecond ∧ t.1 * oneSecond + t.2 =
    (tv.tvSec * oneSecond + tv.tvUsec * 1000) + (timeout.s * oneSecond + timeout.n)

def nanos (tv : Timeval) (timeout : Timeout) : Int := timeout.n + tv.tvUsec * 1000

/-- The wait gets a normalised time that is the sum exactly if no `long`
overflows and the nanoseconds are not a multiple of a second, other than 0:
the loop leaves a whole second behind. -/
theorem adjustTimeToAbsolut_iff (tv : Timeval) (time : Int) (timeout : Timeout) :
    Absolute tv timeout (adjustTimeToAbsolut (some tv) time timeout.s timeout.n) ↔
      nanos tv timeout < 2 ^ 63 ∧ timeout.s + tv.tvSec + nanos tv timeout / oneSecond < 2 ^ 63 ∧
        (nanos tv timeout = 0 ∨ nanos tv timeout % oneSecond ≠ 0) := by
  rcases tv with ⟨sec, usec, secLow, secHigh, usecLow, usecHigh⟩
  rcases timeout with ⟨s, n, sLow, sHigh, nLow, nHigh⟩
  have low : -2 ^ 63 ≤ s + sec := by omega
  simp only [adjustTimeToAbsolut, nanos, Absolute]
  rcases Int.lt_or_le (n + usec * 1000) (2 ^ 63) with fits | overflows
  · have same : longOf (n + usec * 1000) = n + usec * 1000 := by
      rw [longOf]
      omega
    rw [same]
    rcases Int.lt_or_le 0 (n + usec * 1000) with positive | none
    · rw [carryLoop_of_pos _ _ positive _ rfl]
      simp only [longOf, oneSecond]
      omega
    · rw [carryLoop_of_le (by rw [oneSecond]; omega)]
      simp only [longOf, oneSecond]
      omega
  · have wraps : longOf (n + usec * 1000) < 0 := by
      rw [longOf]
      omega
    rw [carryLoop_of_le (by rw [oneSecond]; omega)]
    omega

/-- Half a second past a second and half a second more. -/
theorem not_adjustTimeToAbsolut : ¬ ∀ (tv : Timeval) (time : Int) (timeout : Timeout),
    Absolute tv timeout (adjustTimeToAbsolut (some tv) time timeout.s timeout.n) := by
  intro all
  have normal := (all ⟨1, 500000, by decide, by decide, by decide, by decide⟩ 0
    ⟨0, 500000000, by decide, by decide, by decide, by decide⟩).2.1
  rw [adjustTimeToAbsolut, carryLoop_of_le (by decide)] at normal
  exact absurd normal (by decide)

end Coast.SystemAPI
