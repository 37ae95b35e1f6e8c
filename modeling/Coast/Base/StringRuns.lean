import Coast.Base.StringMutators

/-!
# Runs of string mutators

`PrependWith` puts the terminator of an emptied string nowhere: the byte at
the new length is what an earlier text has left there.
-/

namespace Coast

open Overwrite List Option Nat

namespace StringRep

theorem strstr_inside {pattern text : Bytes} {pos : Nat} (found : strstr pattern text = some pos) :
    pos + pattern.length ≤ text.length := by
  induction text generalizing pos with
  | nil =>
    unfold strstr at found
    split at found
    · rename_i empty
      cases found
      rw [empty]
      exact le_refl 0
    · cases found
  | cons c text ih =>
    unfold strstr at found
    split at found
    · rename_i here
      cases found
      rw [zero_add]
      exact ( isPrefixOf_iff_prefix.mp here).length_le
    · rw [map_eq_some_iff] at found
      rcases found with ⟨rest, later, next⟩
      have inside := ih later
      rw [length_cons]
      omega

theorem length_cstr_le {content : Bytes} {i : Nat}
    (nul : content[i]? = some 0) : (cstr content).length ≤ i := by
  induction content generalizing i with
  | nil => cases nul
  | cons c content ih =>
    unfold cstr
    rw [takeWhile_cons]
    by_cases zero : c = 0
    · rw [if_neg (by rw [zero]; decide)]
      exact zero_le i
    · rw [if_pos (by rw [decide_eq_true_eq]; exact zero)]
      cases i with
      | zero =>
        rw [getElem?_cons_zero, Option.some.injEq] at nul
        exact absurd nul zero
      | succ i =>
        rw [getElem?_cons_succ] at nul
        rw [length_cons]
        exact succ_le_succ (ih nul)

theorem fits_any {env : StringEnv} {impl : StringImpl} {newLength : Nat}
    (fits : Fits env (some impl) newLength) (this : StringRep) : Fits env this newLength := by
  cases this with
  | none => exact fits_none fits
  | some other => exact fits

section

variable {env : StringEnv} {this : StringRep}

theorem subString_length {impl : StringImpl} (start : Nat)
    (fits : Fits env none (impl.fLength - start)) :
    ∃ tmp, subString env (some impl) start = some tmp ∧ length tmp ≤ impl.fLength - start := by
  simp only [subString]
  split
  · exact ⟨none, rfl, zero_le _⟩
  · have sameTaken : taken (some ((pointer env (some impl)).from_ start))
        (impl.fLength - start : Nat) = impl.fLength - start := by
      rw [taken_of_nonneg _ (Int.natCast_nonneg _), Int.toNat_natCast]
    have empty : Terminated none := trivial
    have fitting : Fits env none ((0 : Int).toNat +
        taken (some ((pointer env (some impl)).from_ start)) (impl.fLength - start : Nat)) := by
      rw [sameTaken, Int.toNat_zero, zero_add]
      exact fits
    rcases set_terminated empty 0 (some ((pointer env (some impl)).from_ start))
      (impl.fLength - start : Nat) fitting with ⟨tmp, copied, _, short⟩
    rw [sameTaken, Int.toNat_zero, zero_add] at short
    refine ⟨tmp, copied, ?_⟩
    simp only [length, Nat.zero_max] at short
    exact short

def strlen (s : Option Bytes) : Nat := (s.map fun s => (Source.text s).strlen).getD 0

theorem appendChars_length (terminated : Terminated this)
    (s : Option Bytes) (fits : Fits env this (length this + strlen s)) :
    ∃ after, appendChars env this s (-1) = some after ∧ Terminated after ∧
      length after ≤ length this + strlen s := by
  cases s with
  | none => exact ⟨this, rfl, terminated, le_refl _⟩
  | some s =>
    have minus : atMost (Source.text s).strlen (-1) = -1 := by
      unfold atMost
      rw [if_neg (by omega)]
    rcases set_terminated
      terminated (length this) (some (Source.text s)) (-1) fits with
        ⟨after, placed, isTerminated, short⟩
    refine ⟨after, ?_, isTerminated, ?_⟩
    · simp only [appendChars, map_some, appendSource, minus]
      exact placed
    · rw [Int.toNat_natCast, max_eq_right (le_add_right _ _)] at short
      exact short

theorem replace_keeps (terminated : Terminated this) (pattern replacement : Option Bytes)
    (fits : ∀ text, pattern = some text → Fits env this
      (length this - (cstr text).length + strlen replacement)) :
    Keeps (replace env this pattern replacement) := by
  cases this with
  | none => exact keeps_some terminated
  | some impl =>
    cases pattern with
    | none => exact keeps_some terminated
    | some pattern =>
      have fits := fits pattern rfl
      unfold replace
      dsimp only
      cases found : strstr (cstr pattern) (cstr impl.content) with
      | none => exact keeps_some terminated
      | some pos =>
        have inside := strstr_inside found
        have before := length_cstr_le terminated.2
        simp only [length] at fits
        have rest : Fits env none
            (impl.fLength - (pos + (cstr pattern).length)) :=
          fits_any (fits.mono (by omega)) none
        rcases subString_length (pos + (cstr pattern).length) rest with ⟨tmp, copied, short⟩
        have small : (pos : Int).toNat + taken none 0 ≤ length (some impl) := by
          rw [taken_of_nonneg _ (Int.le_refl 0)]
          simp only [length]
          omega
        rcases set_small_keeps env terminated pos none 0 small with
            ⟨first, cut, firstTerminated, _, firstLength⟩
        rcases appendChars_length firstTerminated replacement
            (fits_any (fits.mono (by
              rw [firstLength]
              simp only [endOf, isSome_none, Bool.false_eq_true, if_false, Int.toNat_natCast]
              omega)) first) with
            ⟨second, added, secondTerminated, secondLength⟩
        have trimmed : trim env (some impl) pos = some first := by
          unfold trim
          rw [if_pos (by simp only [length]; omega)]
          exact cut
        have shortRest : textLength (tmp.map fun impl =>
            impl.content.take impl.fLength) ≤ impl.fLength - (pos + (cstr pattern).length) := by
          cases tmp with
          | none => exact zero_le _
          | some rest =>
            simp only [textLength, map_some, getD_some, length_take]
            simp only [length] at short
            omega
        simp only [copied, trimmed, added, bind_eq_bind, bind_some]
        apply append_keeps secondTerminated
        refine fits_any (fits.mono ?_) second
        rw [firstLength] at secondLength
        simp only [endOf, isSome_none, Bool.false_eq_true,
          if_false, Int.toNat_natCast] at secondLength
        omega

/-- What `PrependWith` relies on: a block is found when one is needed, and
an emptied string that keeps its block has a NUL at the new length. -/
structure Prependable (env : StringEnv) (this : StringRep) (newLength : Nat) : Prop where
  found : capacity this ≤ newLength → Found env this (length this + newLength)
  cleared : ∀ impl, this = some impl → impl.fLength = 0 →
    newLength < impl.content.length → impl.content[newLength]? = some 0

theorem reserve_room {newLength : Nat} (terminated : Terminated this) (positive : 0 < newLength)
    (fits : Fits env this (length this + newLength))
    (prependable : Prependable env this newLength) :
    ∃ impl, reserve env this newLength = some (some impl) ∧
      Terminated (some impl) ∧ impl.fLength = length this ∧
      newLength < impl.content.length ∧
      (impl.fLength = 0 → impl.content[newLength]? = some 0) := by
  have takes : taken none (max (newLength : Int) 0) = newLength := by
    rw [taken_of_nonneg _ (by omega)]
    omega
  have zeroFirst : ∀ impl : StringImpl, this = some impl →
      newLength < impl.content.length → impl.fLength = 0 → impl.content[newLength]? = some 0 :=
    fun impl same room empty => prependable.cleared impl same empty room
  unfold reserve
  by_cases large : capacity this ≤ length this + newLength
  · have wanted : 0 < length this + taken none (max (newLength : Int) 0) := by
      rw [takes]
      omega
    have needed : capacity this ≤ length this + taken none (max (newLength : Int) 0) := by
      rw [takes]
      exact large
    have fitting : Fits env this (length this + taken none (max (newLength : Int) 0)) := by
      rw [takes]
      exact fits
    rcases set_grown none wanted needed (fitting _ (le_max_right _ _)) with
      ⟨kept, notFound⟩ | ⟨impl, placed, isPlaced, zeros⟩
    · rw [takes] at notFound
      have room : newLength < capacity this := by
        refine Nat.lt_of_not_le ?_
        intro needed
        exact notFound (prependable.found needed)
      cases this with
      | none => exact absurd room (not_lt_zero _)
      | some impl =>
        exact ⟨impl, kept, terminated, rfl, room, zeroFirst impl rfl room⟩
    · have lengthIs := isPlaced.length_eq
      have roomIs := isPlaced.room_lt
      rw [takes] at roomIs
      refine ⟨impl, placed, isPlaced.terminated, lengthIs, by omega, ?_⟩
      intro empty
      exact zeros newLength (by omega) (by omega)
  · cases this with
    | none => exact absurd (zero_le _) large
    | some old =>
      have room := Nat.lt_of_not_le large
      have enough : length (some old) +
          taken none (max (newLength : Int) 0) < old.content.length := by
        rw [takes]
        exact room
      rcases set_inPlace env none enough with ⟨impl, placed, isPlaced, sameLength, frame⟩
      have lengthIs := isPlaced.length_eq
      have roomIs := isPlaced.room_lt
      rw [takes] at roomIs
      refine ⟨impl, placed, isPlaced.terminated, lengthIs, by omega, ?_⟩
      intro empty
      have oldEmpty : old.fLength = 0 := lengthIs.symm.trans empty
      have before : newLength < old.content.length := by
        rw [← sameLength]
        omega
      rw [frame newLength (by omega)]
      exact zeroFirst old rfl before oldEmpty

theorem replaceAt_end (env : StringEnv) {impl : StringImpl} {fillTo : Nat} (s : Source)
    (filled : 0 < fillTo) (nonempty : 0 < impl.fLength)
    (room : fillTo + impl.fLength < impl.content.length) :
    ∃ result, replaceAt env (some impl) fillTo (some s) impl.fLength = some (some result) ∧
      Terminated (some result) ∧
      result.fLength = fillTo + impl.fLength := by
  have takes : taken (some s) (impl.fLength : Int) = impl.fLength := by
    rw [taken_of_nonneg _ (Int.natCast_nonneg _), Int.toNat_natCast]
  have enough : fillTo + taken (some s) (impl.fLength : Int) < impl.content.length := by
    rw [takes]
    exact room
  rcases set_inPlace env (some s) enough with ⟨result, placed, isPlaced, _⟩
  refine ⟨result, ?_, isPlaced.terminated, ?_⟩
  · have wanted : (0 ≤ (fillTo : Int) && 0 < (impl.fLength : Int)) = true := by
      rw [Bool.and_eq_true, decide_eq_true_eq, decide_eq_true_eq]
      omega
    have beyond : (length (some impl) : Int) - fillTo < (impl.fLength : Int) := by
      simp only [length]
      omega
    unfold replaceAt
    dsimp only
    rw [if_pos wanted, if_pos beyond]
    exact placed
  · rw [isPlaced.length_eq, takes]
    rfl

theorem fill_keeps {impl : StringImpl} {fillTo : Nat} (fill : Byte)
    (terminated : Terminated (some impl)) (inside : fillTo ≤ impl.fLength) :
    ∃ content, overwrite impl.content 0 (List.replicate fillTo fill) = some content ∧
      Terminated (some ⟨content, impl.fLength⟩) := by
  have fits : 0 + (List.replicate fillTo fill).length ≤ impl.fLength := by
    rw [length_replicate]
    omega
  rcases overwrite_terminated terminated fits with ⟨content, written, _, isTerminated⟩
  exact ⟨content, written, isTerminated⟩

private theorem reserved_target {newLength : Int} (longer : (length this : Int) < newLength) :
    reserve env this (max newLength (length this)) = reserve env this (newLength.toNat : Nat) := by
  have same : max newLength (length this) = (newLength.toNat : Int) := by
    omega
  rw [same]

theorem copied_text {impl : StringImpl} {newLength : Nat} (terminated : Terminated (some impl))
    (fits : Fits env none newLength) (shorter : impl.fLength ≤ newLength) :
    ∃ tmp, set env none 0 (some (pointer env (some impl))) (-1) = some tmp := by
  have seen := length_cstr_le terminated.2
  have empty : Terminated none := trivial
  have same : taken (some (pointer env (some impl))) (-1) = (cstr impl.content).length := rfl
  rcases set_terminated empty 0
    (some (pointer env (some impl))) (-1) (fits.mono (by
      rw [same, Int.toNat_zero]
      omega)) with
      ⟨tmp, copied, _⟩
  exact ⟨tmp, copied⟩

theorem prependWith_keeps (terminated : Terminated this) (newLength : Int) (fill : Byte)
    (meets : (length this : Int) < newLength →
      Fits env this (length this + newLength.toNat) ∧ Prependable env this newLength.toNat) :
    Keeps (prependWith env this newLength fill) := by
  by_cases longer : (length this : Int) < newLength
  · rcases meets longer with ⟨fits, prependable⟩
    rcases reserve_room terminated (by omega) fits prependable with
        ⟨impl, reserved, isTerminated, sameLength, room, zero⟩
    have fillIs : newLength - length this =
        ((newLength.toNat - impl.fLength : Nat) : Int) := by omega
    have positive : 0 < newLength.toNat - impl.fLength := by omega
    unfold prependWith
    dsimp only
    rw [if_pos (by omega), reserved_target longer, reserved]
    simp only [bind_eq_bind, bind_some]
    rw [fillIs, ← sameLength]
    by_cases nonempty : impl.fLength ≠ 0
    · have moved : ∀ s : Source, ∃ result,
          replaceAt env (some impl) (newLength.toNat - impl.fLength : Nat)
            (some s) impl.fLength = some (some result) ∧
          Terminated (some result) ∧
          newLength.toNat - impl.fLength ≤ result.fLength := by
        intro s
        rcases replaceAt_end env s positive (Nat.pos_of_ne_zero nonempty) (by omega) with
            ⟨result, placed, placedTerminated, lengthIs⟩
        exact ⟨result, placed, placedTerminated, by omega⟩
      have filled : ∀ result, Terminated (some result) →
          newLength.toNat - impl.fLength ≤ result.fLength →
          Keeps (do
            let content ← overwrite result.content 0
              (List.replicate (newLength.toNat - impl.fLength) fill)
            some (some ⟨content, result.fLength⟩)) := by
        intro result resultTerminated inside
        rcases fill_keeps fill resultTerminated inside with ⟨content, written, kept⟩
        refine ⟨_, ?_, kept⟩
        simp only [written, bind_eq_bind, bind_some]
      simp only [if_pos nonempty, Int.toNat_natCast]
      by_cases apart : 2 * (impl.fLength : Int) ≤ newLength
      · rcases moved (pointer env (some impl)) with ⟨result, placed, placedTerminated, inside⟩
        simp only [if_pos apart, placed, bind_some]
        exact filled result placedTerminated inside
      · rcases copied_text isTerminated
          (fits_none fits) (by omega) with ⟨tmp, copied⟩
        rcases moved (pointer env tmp) with ⟨result, placed, placedTerminated, inside⟩
        simp only [if_neg apart, copied, placed, bind_some]
        exact filled result placedTerminated inside
    · have empty : impl.fLength = 0 := not_not.mp nonempty
      have lengthened : Terminated (some ⟨impl.content, newLength.toNat - impl.fLength⟩) := by
        apply terminated_of_nul
        rw [empty, Nat.sub_zero]
        exact zero empty
      rcases fill_keeps fill lengthened (le_refl _) with ⟨content, written, kept⟩
      rw [empty] at written kept
      refine ⟨_, ?_, kept⟩
      simp only [empty, ne_eq, not_true_eq_false, if_false,
        Int.toNat_natCast, bind_some, zero_add, written]
  · unfold prependWith
    dsimp only
    rw [if_neg (by omega)]
    exact keeps_some terminated

end

/-- The mutators and what they are called with.  `appendDouble` is given what
is printed of the number. -/
inductive Mutator where
  | construct (c : Construction)
  | assignChars (s : Option Bytes)
  | assign (s : Option Bytes)
  | appendChar (c : Byte)
  | appendChars (s : Option Bytes) (len : Int)
  | appendBuffer (s : Option Bytes) (len : Int)
  | append (s : Option Bytes)
  | appendLong (number : Int64)
  | appendDouble (low : Bool) (printed : Bytes)
  | trim (newlen : Int)
  | trimFront (newstart : Int)
  | reserve (minreserve : Int)
  | putAt (pos : Int) (c : Byte)
  | replaceAt (pos : Int) (s : Option Source) (len : Int)
  | replace (pattern replacement : Option Bytes)
  | toLower
  | toUpper
  | prependWith (newLength : Int) (fill : Byte)

/-- A call that changes a string. -/
def Mutator.apply (env : StringEnv) (this : StringRep) : Mutator → Option StringRep
  | .construct c => StringRep.construct env c
  | .assignChars s => StringRep.assignChars env this s
  | .assign s => StringRep.assign env this s
  | .appendChar c => StringRep.appendChar env this c
  | .appendChars s len => StringRep.appendChars env this s len
  | .appendBuffer s len => StringRep.appendBuffer env this s len
  | .append s => StringRep.append env this s
  | .appendLong number => StringRep.appendLong env this number
  | .appendDouble low printed => StringRep.appendDouble env this low printed
  | .trim newlen => StringRep.trim env this newlen
  | .trimFront newstart => StringRep.trimFront env this newstart
  | .reserve minreserve => StringRep.reserve env this minreserve
  | .putAt pos c => StringRep.putAt env this pos c
  | .replaceAt pos s len => StringRep.replaceAt env this pos s len
  | .replace pattern replacement =>
    StringRep.replace env this pattern replacement
  | .toLower => toCase tolower this
  | .toUpper => toCase toupper this
  | .prependWith newLength fill =>
    StringRep.prependWith env this newLength fill

def printedLength (bufSize : Nat) (printed : Bytes) (count : Nat) : Nat :=
  taken (some (.text (printed.take (bufSize - 1)))) (if bufSize ≤ count then -1 else count)

/-- How long a text the call needs room for. -/
def Mutator.wanted (this : StringRep) : Mutator → Nat
  | .construct c => c.wanted
  | .assignChars s => strlen s
  | .assign s => textLength s
  | .appendChar _ => length this + 1
  | .appendChars (some s) len =>
    appended this (some (.text s)) (atMost (Source.text s).strlen len)
  | .appendChars none _ => 0
  | .appendBuffer _ len => length this + len.toNat
  | .append s => length this + textLength s
  | .appendLong number => length this +
      printedLength 100 (decimalText number.toInt) (decimalText number.toInt).length
  | .appendDouble low printed => length this + printedLength 500 printed
        (if low then
          printed.length - eatenZeros (printed.take 499).reverse
        else printed.length)
  | .trim _ => 0
  | .trimFront _ => 0
  | .reserve minreserve => length this + (max minreserve 0).toNat
  | .putAt pos _ => pos.toNat + 1
  | .replaceAt pos _ len => pos.toNat + len.toNat
  | .replace (some pattern) replacement =>
    length this - (cstr pattern).length + strlen replacement
  | .replace none _ => 0
  | .toLower => 0
  | .toUpper => 0
  | .prependWith newLength _ =>
    if (length this : Int) < newLength then
      length this + newLength.toNat
    else 0

/-- The size of the block that may be asked for is an `int`, and
`PrependWith` finds what it relies on. -/
structure Meets (env : StringEnv) (this : StringRep) (m : Mutator) : Prop where
  fits : Fits env this (m.wanted this)
  prependable : ∀ newLength fill, m = .prependWith newLength fill →
    (length this : Int) < newLength → Prependable env this newLength.toNat

theorem apply_keeps {env : StringEnv} {this : StringRep} {m : Mutator}
    (terminated : Terminated this) (meets : Meets env this m) :
    Keeps (m.apply env this) := by
  have fits := meets.fits
  cases m with
  | construct c => exact construct_keeps c (fits_none fits)
  | assignChars s =>
    apply set_keeps terminated
    rw [Int.toNat_zero, zero_add]
    cases s <;> exact fits
  | assign s => exact assign_keeps terminated s fits
  | appendChar c => exact appendChar_keeps terminated c fits
  | appendChars s len =>
    cases s with
    | none => exact keeps_some terminated
    | some s => exact set_behind_keeps terminated _ _ fits
  | appendBuffer s len => exact appendBuffer_keeps terminated s len fits
  | append s => exact append_keeps terminated s fits
  | appendLong number => exact set_behind_keeps terminated _ _ fits
  | appendDouble low printed => exact set_behind_keeps terminated _ _ fits
  | trim newlen => exact trim_keeps terminated newlen
  | trimFront newstart => exact trimFront_keeps terminated newstart
  | reserve minreserve =>
    apply set_behind_keeps terminated
    unfold appended
    rw [taken_of_nonneg _ (Int.le_max_right _ _)]
    exact fits
  | putAt pos c => exact putAt_keeps terminated pos c fits
  | replaceAt pos s len => exact replaceAt_keeps terminated pos s len fits
  | replace pattern replacement =>
    apply replace_keeps terminated
    intro text same
    rw [same] at fits
    exact fits
  | toLower => exact toCase_keeps terminated tolower
  | toUpper => exact toCase_keeps terminated toupper
  | prependWith newLength fill =>
    apply prependWith_keeps terminated
    intro longer
    simp only [Mutator.wanted, if_pos longer] at fits
    exact ⟨fits, meets.prependable newLength fill rfl longer⟩

def run (this : StringRep) : List (StringEnv × Mutator) → Option StringRep
  | [] => some this
  | (env, m) :: calls => do
      let after ← m.apply env this
      run after calls

def RunMeets (this : StringRep) : List (StringEnv × Mutator) → Prop
  | [] => True
  | (env, m) :: calls =>
    Meets env this m ∧ ∀ after, m.apply env this = some after → RunMeets after calls

/-- A run of calls that meet the condition returns a terminated string. -/
theorem run_terminated {this : StringRep} {calls : List (StringEnv × Mutator)}
    (terminated : Terminated this) (meets : RunMeets this calls) :
    ∃ after, run this calls = some after ∧ Terminated after := by
  induction calls generalizing this with
  | nil => exact ⟨this, rfl, terminated⟩
  | cons call calls ih =>
    rcases apply_keeps terminated meets.1 with ⟨after, applied, isTerminated⟩
    rcases ih isTerminated (meets.2 after applied) with ⟨last, done, lastTerminated⟩
    refine ⟨last, ?_, lastTerminated⟩
    rw [run, applied]
    exact done

def wordEnv : StringEnv where
  sizeHint size := (size + 7) / 8 * 8
  enough size := by omega
  succeeds _ := true
  behind _ := 0

/-- The text is written, cut off and replaced by fill characters. -/
def refilled (newLength : Int) : List (StringEnv × Mutator) :=
  [(wordEnv, .construct (.chars (some (lit "hello")) (-1))),
    (wordEnv, .trim 0), (wordEnv, .prependWith newLength (ch ' '))]

theorem fits_wordEnv (this : StringRep) {newLength : Nat}
    (short : newLength ≤ 4096) : Fits wordEnv this newLength := by
  intro capacity small
  have bound : allocCapacity this newLength ≤ 8192 := by
    unfold allocCapacity cStrAllocLimit cStrAllocMinimum cStrAllocIncrement
    repeat' split
    all_goals omega
  have limit : intMax = 2147483647 := rfl
  unfold tara wordEnv
  dsimp only
  omega

/-- The byte behind the old text is NUL. -/
theorem run_terminated_refilled :
    RunMeets none (refilled 5) ∧
      ∃ after, run none (refilled 5) = some after ∧ Terminated after := by
  have meets : RunMeets none (refilled 5) := by
    refine ⟨⟨fits_wordEnv _ (by decide +kernel), nofun⟩, ?_⟩
    intro first built
    refine ⟨⟨fits_wordEnv _ (zero_le _), nofun⟩, ?_⟩
    intro second cut
    have written : some (some ⟨lit "hello" ++ [0, 0, 0], 5⟩) = some first := by
      rw [← built]
      decide +kernel
    cases written
    have emptied : some (some ⟨0 :: (lit "hello").drop 1 ++ [0, 0, 0], 0⟩) = some second := by
      rw [← cut]
      decide +kernel
    cases emptied
    refine ⟨⟨fits_wordEnv _ (by decide +kernel), ?_⟩, ?_⟩
    · intro newLength fill same longer
      cases same
      refine ⟨fun _ _ => rfl, ?_⟩
      intro impl same _ _
      cases same
      decide +kernel
    · intro after _
      trivial
  exact ⟨meets, run_terminated trivial meets⟩

/-- Two fill characters are followed by the old text. -/
theorem not_run_terminated :
    ¬ ∀ (calls : List (StringEnv × Mutator)) (after : StringRep),
      run none calls = some after → Terminated after := by
  intro always
  have terminated := always (refilled 2) (some ⟨lit "  llo" ++ [0, 0, 0], 2⟩) (by decide +kernel)
  exact absurd terminated.2 (by decide +kernel)

end StringRep

end Coast
