import Coast.Base.StringTermination

/-!
# The mutators of a string, one by one

Each mutator but `PrependWith` keeps a string terminated as long as the block
for the text that it makes can be asked for.
-/

namespace Coast

open Overwrite List Option Nat

namespace StringRep

def Keeps (result : Option StringRep) : Prop := ∃ after, result = some after ∧ Terminated after

variable {this : StringRep}

theorem keeps_some (terminated : Terminated this) : Keeps (some this) := ⟨this, rfl, terminated⟩

variable {env : StringEnv}

theorem set_keeps (terminated : Terminated this) (start : Int) (s : Option Source)
    (len : Int) (fits : Fits env this (start.toNat + taken s len)) :
    Keeps (set env this start s len) := by
  rcases set_terminated terminated start s len fits with ⟨after, placed, isTerminated, _⟩
  exact ⟨after, placed, isTerminated⟩

theorem set_small_keeps (env : StringEnv) (terminated : Terminated this) (start : Int)
    (s : Option Source) (len : Int) (small : start.toNat + taken s len ≤ length this) :
    ∃ after, set env this start s len = some after ∧ Terminated after ∧ after.isSome = this.isSome ∧
      length after = endOf start.toNat s (taken s len) := by
  cases this with
  | none =>
    have zero : start.toNat = 0 ∧ taken s len = 0 := by
      simp only [length] at small
      omega
    refine ⟨none, ?_, trivial, rfl, ?_⟩
    · unfold taken at zero
      simp only [set, zero.1, zero.2, add_zero, lt_irrefl,
        decide_false, Bool.false_and, Bool.false_eq_true, if_false]
    · simp only [length, endOf, zero.1, zero.2, add_zero, ite_self]
  | some impl =>
    have room : start.toNat + taken s len < impl.content.length :=
      lt_of_le_of_lt small terminated.1
    rcases set_inPlace env s room with ⟨after, placed, isPlaced, _⟩
    refine ⟨some after, ?_, isPlaced.terminated, rfl, isPlaced.length_eq⟩
    unfold set at placed ⊢
    rwa [Int.toNat_natCast] at placed

theorem fits_none {newLength : Nat} (fits : Fits env this newLength) : Fits env none newLength := by
  intro capacity small
  apply fits capacity
  have exact : allocCapacity none newLength = newLength + 1 := rfl
  have larger : newLength + 1 ≤ max 8192 (allocCapacity this newLength) := by
    unfold allocCapacity cStrAllocLimit cStrAllocMinimum cStrAllocIncrement
    repeat' split
    all_goals omega
  omega

theorem alloc_keeps {capacity : Int}
    (fits : Fits env none capacity.toNat) : Keeps (alloc env capacity) := by
  have exact : allocCapacity none capacity.toNat = capacity.toNat + 1 := rfl
  have zeros : ∀ room, 0 < room → Terminated (some ⟨List.replicate room 0, 0⟩) := by
    intro room positive
    apply terminated_of_nul
    rw [getElem?_replicate, if_pos positive]
  by_cases positive : capacity ≤ 0
  · have minimum : alloc env capacity = alloc env (cStrAllocMinimum : Nat) := by
      unfold alloc cStrAllocMinimum
      simp only [positive, if_true]
      rfl
    have fitting : env.sizeHint (cStrAllocMinimum + tara) ≤ intMax := by
      apply fits
      unfold cStrAllocMinimum
      omega
    rw [minimum]
    rcases alloc_of_fits (by decide) fitting with ⟨refused, _⟩ | ⟨room, roomy, granted⟩
    · exact ⟨none, refused, trivial⟩
    · refine ⟨_, granted, zeros room ?_⟩
      exact lt_of_lt_of_le (by decide) roomy
  · have same : capacity = (capacity.toNat : Int) := by omega
    have fitting : env.sizeHint (capacity.toNat + tara) ≤ intMax := by
      apply fits
      omega
    rw [same]
    rcases alloc_of_fits (by omega) fitting with ⟨refused, _⟩ | ⟨room, roomy, granted⟩
    · exact ⟨none, refused, trivial⟩
    · exact ⟨_, granted, zeros room (by omega)⟩

def Construction.wanted : Construction → Nat
  | .empty => 0
  | .reserved capacity => capacity.toNat
  | .chars (some s) l =>
    taken (some (.text s)) (atMost (Source.text s).strlen l)
  | .chars none _ => 0
  | .buffer _ l => l.toNat
  | .copy (some s) => s.length
  | .copy none => 0

theorem taken_of_nonneg (s : Option Source) {len : Int} (nonneg : 0 ≤ len) :
    taken s len = len.toNat := by
  unfold taken
  rw [if_neg (Int.not_lt.mpr nonneg)]

theorem construct_keeps (c : Construction)
    (fits : Fits env none c.wanted) : Keeps (construct env c) := by
  have started : ∀ (s : Option Source) (len : Int),
      Fits env none (taken s len) → Keeps (set env none 0 s len) := by
    intro s len fits
    have empty : Terminated none := trivial
    apply set_keeps empty
    rwa [Int.toNat_zero, zero_add]
  cases c with
  | empty => exact keeps_some trivial
  | reserved capacity => exact alloc_keeps fits
  | chars s l =>
    cases s with
    | none => exact keeps_some trivial
    | some s => exact started _ _ fits
  | buffer s l =>
    by_cases positive : 0 < l
    · simp only [construct, positive, if_true]
      cases s with
      | none => exact alloc_keeps fits
      | some s =>
        apply started
        rwa [taken_of_nonneg _ (Int.le_of_lt positive)]
    · simp only [construct, positive, if_false]
      exact keeps_some trivial
  | copy s =>
    cases s with
    | none => exact keeps_some trivial
    | some s =>
      apply started
      rw [taken_of_nonneg _ (Int.natCast_nonneg _), Int.toNat_natCast]
      exact fits

section

variable {env : StringEnv} {this : StringRep}

theorem appendChar_keeps (terminated : Terminated this) (c : Byte)
    (fits : Fits env this (length this + 1)) :
    Keeps (appendChar env this c) := by
  unfold appendChar
  by_cases full : capacity this < length this + 2
  · rw [if_pos full]
    apply set_keeps terminated
    rwa [taken_of_nonneg _ (by decide), Int.toNat_natCast]
  · rw [if_neg full]
    cases this with
    | none => exact absurd (by decide) full
    | some impl =>
      simp only [capacity, length] at full
      have inside : impl.fLength + [c].length ≤ impl.content.length := by
        rw [length_singleton]
        omega
      rcases overwrite_of_fits inside with ⟨first, copied⟩
      have sameLength := length_overwrite copied
      have behind : impl.fLength + 1 + [(0 : Byte)].length ≤ first.length := by
        rw [length_singleton, sameLength]
        omega
      rcases overwrite_of_fits behind with ⟨content, written⟩
      refine ⟨some ⟨content, impl.fLength + 1⟩, ?_, ?_⟩
      · simp only [copied, written, bind_eq_bind, bind_some]
      · apply terminated_of_nul
        exact getElem?_overwrite_inside written Nat.zero_lt_one

def appended (this : StringRep) (s : Option Source) (len : Int) : Nat := length this + taken s len

theorem set_behind_keeps (terminated : Terminated this) (s : Option Source)
    (len : Int) (fits : Fits env this (appended this s len)) :
    Keeps (set env this (length this) s len) :=
  set_keeps terminated (length this) s len fits

theorem appendBuffer_keeps (terminated : Terminated this) (s : Option Bytes) (len : Int)
    (fits : Fits env this (length this + len.toNat)) :
    Keeps (appendBuffer env this s len) := by
  cases s with
  | none => exact keeps_some terminated
  | some s =>
    by_cases positive : 0 < len
    · simp only [appendBuffer, positive, if_true]
      apply set_behind_keeps terminated
      unfold appended
      rwa [taken_of_nonneg _ (Int.le_of_lt positive)]
    · simp only [appendBuffer, positive, if_false]
      exact keeps_some terminated

def textLength (s : Option Bytes) : Nat := (s.map List.length).getD 0

section

variable (terminated : Terminated this)
include terminated

theorem append_keeps (s : Option Bytes) (fits : Fits env this (length this + textLength s)) :
    Keeps (append env this s) := by
  cases s with
  | none => exact keeps_some terminated
  | some s =>
    apply set_behind_keeps terminated
    unfold appended
    rw [taken_of_nonneg _ (Int.natCast_nonneg _), Int.toNat_natCast]
    exact fits

theorem assign_keeps (s : Option Bytes) (fits : Fits env this (textLength s)) :
    Keeps (assign env this s) := by
  cases s with
  | none =>
    unfold assign
    dsimp only
    split
    · rcases set_small_keeps env
        terminated 0 none 0 (zero_le _) with ⟨after, emptied, isTerminated, _⟩
      exact ⟨after, emptied, isTerminated⟩
    · exact keeps_some terminated
  | some s =>
    apply set_keeps terminated
    rw [taken_of_nonneg _ (Int.natCast_nonneg _), Int.toNat_natCast, Int.toNat_zero, zero_add]
    exact fits

theorem trim_keeps (newlen : Int) : Keeps (trim env this newlen) := by
  unfold trim
  split
  · rename_i shorter
    have small : newlen.toNat + taken none 0 ≤ length this := by
      rw [taken_of_nonneg _ (Int.le_refl 0)]
      omega
    rcases set_small_keeps env terminated newlen none 0 small with ⟨after, cut, isTerminated, _⟩
    exact ⟨after, cut, isTerminated⟩
  · exact keeps_some terminated

theorem trimFront_keeps (newstart : Int) : Keeps (trimFront env this newstart) := by
  unfold trimFront
  by_cases inside : (0 ≤ newstart && newstart < length this) = true
  · rw [if_pos inside]
    rw [Bool.and_eq_true, decide_eq_true_eq, decide_eq_true_eq] at inside
    have small : (0 : Int).toNat + taken (some ((pointer env this).from_ newstart.toNat))
          (length this - newstart) ≤ length this := by
      rw [taken_of_nonneg _ (by omega)]
      omega
    rcases set_small_keeps env terminated 0 _ _ small with ⟨after, cut, isTerminated, _⟩
    exact ⟨after, cut, isTerminated⟩
  · rw [if_neg inside]
    split
    · cases this with
      | none => exact keeps_some terminated
      | some impl =>
        have nonempty : 0 + [(0 : Byte)].length ≤ impl.content.length := by
          rw [length_singleton]
          exact zero_lt_of_lt terminated.1
        rcases overwrite_of_fits nonempty with ⟨content, written⟩
        refine ⟨some ⟨content, 0⟩, ?_, ?_⟩
        · simp only [written, bind_eq_bind, bind_some]
        · apply terminated_of_nul
          exact getElem?_overwrite_inside written Nat.zero_lt_one
    · exact keeps_some terminated

theorem putAt_keeps (pos : Int) (c : Byte) (fits : Fits env this (pos.toNat + 1)) :
    Keeps (putAt env this pos c) := by
  have placed : Keeps (set env this pos (some (.buffer [c])) 1) := by
    apply set_keeps terminated
    rwa [taken_of_nonneg _ (by decide)]
  unfold putAt
  by_cases nonneg : 0 ≤ pos
  · rw [if_pos nonneg]
    cases this with
    | none => exact placed
    | some impl =>
      dsimp only
      split
      · have inside : pos.toNat + [c].length ≤ impl.fLength := by
          rw [length_singleton]
          omega
        rcases overwrite_terminated terminated inside with ⟨content, written, _, isTerminated⟩
        refine ⟨_, ?_, isTerminated⟩
        simp only [written, bind_eq_bind, bind_some]
      · exact placed
  · rw [if_neg nonneg]
    exact keeps_some terminated

theorem replaceAt_keeps (pos : Int) (s : Option Source) (len : Int)
    (fits : Fits env this (pos.toNat + len.toNat)) :
    Keeps (replaceAt env this pos s len) := by
  unfold replaceAt
  cases s with
  | none => exact keeps_some terminated
  | some s =>
    dsimp only
    by_cases some' : (0 ≤ pos && 0 < len) = true
    · rw [if_pos some']
      rw [Bool.and_eq_true, decide_eq_true_eq, decide_eq_true_eq] at some'
      split
      · apply set_keeps terminated
        rwa [taken_of_nonneg _ (Int.le_of_lt some'.2)]
      · rename_i short
        cases this with
        | none =>
          simp only [length] at short
          omega
        | some impl =>
          simp only [length] at short
          have inside : pos.toNat + (s.bytes len.toNat).length ≤ impl.fLength := by
            rw [length_bytes]
            omega
          rcases overwrite_terminated terminated inside with ⟨content, written, _, isTerminated⟩
          refine ⟨_, ?_, isTerminated⟩
          simp only [written, bind_eq_bind, bind_some]
    · rw [if_neg some']
      exact keeps_some terminated

end

theorem convertCase_nul (convert : Byte → Byte) {content : Bytes} {i : Nat}
    (nul : content[i]? = some 0) :
    ∃ converted, convertCase convert content = some converted ∧ converted[i]? = some 0 := by
  induction content generalizing i with
  | nil => cases nul
  | cons c content ih =>
    by_cases zero : c = 0
    · refine ⟨c :: content, ?_, nul⟩
      rw [convertCase, if_pos zero]
    · cases i with
      | zero =>
        rw [getElem?_cons_zero, Option.some.injEq] at nul
        exact absurd nul zero
      | succ i =>
        rw [getElem?_cons_succ] at nul
        rcases ih nul with ⟨converted, done, kept⟩
        refine ⟨convert c :: converted, ?_, ?_⟩
        · rw [convertCase, if_neg zero, done, map_some]
        · rw [getElem?_cons_succ]
          exact kept

theorem toCase_keeps (terminated : Terminated this)
    (convert : Byte → Byte) : Keeps (toCase convert this) := by
  cases this with
  | none => exact keeps_some terminated
  | some impl =>
    rcases convertCase_nul convert terminated.2 with ⟨content, converted, nul⟩
    refine ⟨some ⟨content, impl.fLength⟩, ?_, terminated_of_nul nul⟩
    simp only [toCase, converted, bind_eq_bind, bind_some]

end

/-- `operator[]` of a String that is not constant: the String after it and the
place of the byte in its buffer. -/
def operatorRef (env : StringEnv) (this : StringRep) (x : Int) : Option (StringRep × Nat) :=
  let n := (max x 0).toNat
  if length this = 0 then (alloc env n).map fun this => (this, n)
  else if length this < n then (set env this n (some (.text [])) 1).map fun this => (this, n)
  else some (this, n)

def InBuffer (result : Option (StringRep × Nat)) : Prop :=
  ∃ impl n, result = some (some impl, n) ∧ n < impl.content.length

/-- What `alloc` asks `SizeHint` for, when it is called with a size. -/
def askedFor (env : StringEnv) (n : Nat) : Nat :=
  env.sizeHint ((if n = 0 then cStrAllocMinimum else n) + tara)

theorem alloc_natCast (env : StringEnv) (n : Nat) :
    alloc env n = if askedFor env n ≤ intMax then
      some (if env.succeeds (askedFor env n) then
        some ⟨List.replicate (askedFor env n - tara) 0, 0⟩ else none)
    else none := by
  have wanted : (if (n : Int) ≤ 0 then cStrAllocMinimum else (n : Int).toNat) =
      if n = 0 then cStrAllocMinimum else n := by
    by_cases zero : n = 0
    · rw [if_pos zero, zero, if_pos (by decide)]
    · rw [if_neg zero, if_neg (by omega), Int.toNat_natCast]
  rw [alloc, wanted]
  rfl

/-- The block that `operator[]` asks for, if it asks for one, has a size that
`Calloc` takes as an `int` and is found.  An index just behind the room for
the terminator needs no new block. -/
def FindsBlock (env : StringEnv) (this : StringRep) (n : Nat) : Prop :=
  if length this = 0 then askedFor env n ≤ intMax ∧ env.succeeds (askedFor env n) = true
  else length this < n → capacity this ≤ n + 1 →
    askedFor env (allocCapacity this (n + 1)) ≤ intMax ∧
      (env.succeeds (askedFor env (allocCapacity this (n + 1))) = true ∨ n < capacity this)

theorem inBuffer_some (impl : StringImpl) (n : Nat) :
    InBuffer (some (some impl, n)) ↔ n < impl.content.length := by
  constructor
  · rintro ⟨_, _, same, less⟩
    cases same
    exact less
  · exact fun less => ⟨impl, n, rfl, less⟩

theorem alloc_inBuffer_iff (env : StringEnv) (n : Nat) :
    InBuffer ((alloc env n).map fun this => (this, n)) ↔
      (askedFor env n ≤ intMax ∧ env.succeeds (askedFor env n) = true) ∧
        (n = 0 ∨ n + tara < env.sizeHint (n + tara)) := by
  rw [alloc_natCast]
  by_cases small : askedFor env n ≤ intMax
  · rw [if_pos small, map_some]
    cases succeeds : env.succeeds (askedFor env n) with
    | false =>
      refine iff_of_false ?_ fun both => Bool.false_ne_true both.1.2
      rintro ⟨_, _, same, _⟩
      cases same
    | true =>
      rw [if_pos rfl, inBuffer_some, length_replicate, and_iff_right ⟨small, rfl⟩]
      have enough := env.enough ((if n = 0 then cStrAllocMinimum else n) + tara)
      rw [askedFor]
      by_cases zero : n = 0
      · rw [if_pos zero] at enough ⊢
        unfold cStrAllocMinimum at enough ⊢
        omega
      · rw [if_neg zero]
        omega
  · rw [if_neg small]
    refine iff_of_false ?_ fun both => small both.1.1
    rintro ⟨_, _, same, _⟩
    cases same

theorem set_inBuffer_iff {impl : StringImpl} {n : Nat} (needed : impl.content.length ≤ n + 1) :
    InBuffer ((set env (some impl) n (some (.text [])) 1).map fun this => (this, n)) ↔
      askedFor env (allocCapacity (some impl) (n + 1)) ≤ intMax ∧
        (env.succeeds (askedFor env (allocCapacity (some impl) (n + 1))) = true ∨
          n < impl.content.length) := by
  have notZero : allocCapacity (some impl) (n + 1) ≠ 0 := by
    have bigger := lt_allocCapacity (some impl) (n + 1)
    omega
  have asked : askedFor env (allocCapacity (some impl) (n + 1)) =
      env.sizeHint (allocCapacity (some impl) (n + 1) + tara) := by
    rw [askedFor, if_neg notZero]
  have positive : 0 < n + taken (some (.text [])) 1 := succ_pos n
  by_cases small : askedFor env (allocCapacity (some impl) (n + 1)) ≤ intMax
  · rw [and_iff_right small]
    by_cases succeeds : env.succeeds (askedFor env (allocCapacity (some impl) (n + 1))) = true
    · rw [iff_true_right (.inl succeeds)]
      have fitting : env.sizeHint (allocCapacity (some impl) (n + 1) + tara) ≤ intMax :=
        asked ▸ small
      have large : capacity (some impl) ≤ n + taken (some (.text [])) 1 := needed
      rcases set_grown (some (.text [])) positive large fitting with
        ⟨-, refused⟩ | ⟨result, placed, isPlaced, -⟩
      · exact absurd (fun _ => asked ▸ succeeds) refused
      · rw [placed, map_some, inBuffer_some]
        exact lt_of_le_of_lt (Nat.le_add_right n _) isPlaced.room_lt
    · -- `Set` leaves the String as it is
      have kept : set env (some impl) n (some (.text [])) 1 = some (some impl) := by
        rw [set_large env (some impl) n (some (.text [])) 1 positive needed]
        show (alloc env (allocCapacity (some impl) (n + 1)) >>= _) = _
        rw [alloc_natCast, if_pos small, if_neg succeeds]
        rfl
      rw [kept, map_some, inBuffer_some, or_iff_right succeeds]
  · have outside : set env (some impl) n (some (.text [])) 1 = none := by
      rw [set_large env (some impl) n (some (.text [])) 1 positive needed]
      show (alloc env (allocCapacity (some impl) (n + 1)) >>= _) = _
      rw [alloc_natCast, if_neg small]
      rfl
    rw [outside]
    refine iff_of_false ?_ fun both => small both.1
    rintro ⟨_, _, same, _⟩
    cases same

/-- The byte lies in the buffer exactly when the block is found and, for an
empty String and an index other than 0, the allocator rounds up: else the
buffer ends in front of the byte. -/
theorem operatorRef_inBuffer_iff (env : StringEnv) (terminated : Terminated this) (n : Nat) :
    InBuffer (operatorRef env this n) ↔
      FindsBlock env this n ∧
        (length this ≠ 0 ∨ n = 0 ∨ n + tara < env.sizeHint (n + tara)) := by
  have index : (max (n : Int) 0).toNat = n := by omega
  rw [operatorRef, index, FindsBlock]
  by_cases empty : length this = 0
  · rw [if_pos empty, if_pos empty, alloc_inBuffer_iff,
      or_iff_right (a := length this ≠ 0) fun some' => some' empty]
  · rw [if_neg empty, if_neg empty, and_iff_left (.inl empty)]
    cases this with
    | none => exact absurd rfl empty
    | some impl =>
      by_cases behind : length (some impl) < n
      · rw [if_pos behind, imp_iff_right behind]
        by_cases room : n + 1 < impl.content.length
        · have inside : n + taken (some (.text [])) (1 : Int) < impl.content.length := room
          rcases set_inPlace env (some (.text [])) inside with
            ⟨result, placed, isPlaced, -⟩
          rw [placed, map_some, inBuffer_some]
          refine iff_of_true (lt_of_le_of_lt (Nat.le_add_right n _) isPlaced.room_lt) ?_
          exact fun needed => absurd room (Nat.not_lt.mpr needed)
        · have needed : impl.content.length ≤ n + 1 := Nat.le_of_not_lt room
          rw [set_inBuffer_iff needed]
          exact (imp_iff_right needed).symm
      · rw [if_neg behind, inBuffer_some]
        refine iff_of_true ?_ fun less => absurd less behind
        exact lt_of_le_of_lt (Nat.le_of_not_lt behind) terminated.1

def exactEnv : StringEnv where
  sizeHint size := size
  enough _ := le_refl _
  succeeds _ := true
  behind _ := 0

theorem operatorRef_inBuffer_iff_one : InBuffer (operatorRef exactEnv none (1 : Nat)) ↔
    FindsBlock exactEnv none 1 ∧
      (length none ≠ 0 ∨ 1 = 0 ∨ 1 + tara < exactEnv.sizeHint (1 + tara)) :=
  operatorRef_inBuffer_iff exactEnv (show Terminated none from trivial) 1

theorem not_operatorRef_inBuffer : ¬ InBuffer (operatorRef exactEnv none 1) := by
  rintro ⟨impl, n, same, inside⟩
  cases same
  exact absurd inside (by decide)

end StringRep

end Coast
