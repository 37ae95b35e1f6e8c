import Coast.Base.StringImpl

/-!
# Strings stay terminated

The length of a string is below its capacity and a NUL stands behind its last
character, after every mutator that meets a condition.
-/

namespace Coast

open Overwrite List Option Nat

namespace StringRep

/-- The length is below the capacity and the byte at `Length()` is NUL. -/
def Terminated : StringRep → Prop
  | none => True
  | some impl =>
    impl.fLength < impl.content.length ∧ impl.content[impl.fLength]? = some 0

variable {impl : StringImpl}

theorem terminated_of_nul (nul : impl.content[impl.fLength]? = some 0) : Terminated (some impl) :=
  ⟨(List.getElem?_eq_some_iff.mp nul).1, nul⟩

theorem length_bytes (s : Source) (len : Nat) : (s.bytes len).length = len := by
  simp [Source.bytes]

/-- The block for a text of this length, if one is needed, is no larger than
an `int` can say.  The first bound covers the small buffers. -/
def Fits (env : StringEnv) (this : StringRep) (newLength : Nat) : Prop :=
  ∀ capacity, capacity ≤ max 8192 (allocCapacity this newLength) →
    env.sizeHint (capacity + tara) ≤ intMax

/-- The block for a text of this length is found when one is needed. -/
def Found (env : StringEnv) (this : StringRep) (newLength : Nat) : Prop :=
  capacity this ≤ newLength →
    env.succeeds (env.sizeHint (allocCapacity this newLength + tara)) = true

theorem lt_allocCapacity (this : StringRep) (newLength : Nat) :
    newLength < allocCapacity this newLength ∨ newLength = 0 := by
  unfold allocCapacity cStrAllocLimit cStrAllocMinimum cStrAllocIncrement
  split
  · split
    · split <;> omega
    · omega
  · omega

variable {this : StringRep}

theorem allocCapacity_le {smaller larger : Nat} (le : smaller ≤ larger) :
    allocCapacity this smaller ≤ max 8192 (allocCapacity this larger) := by
  unfold allocCapacity cStrAllocLimit cStrAllocMinimum cStrAllocIncrement
  split <;> repeat' split
  all_goals omega

variable {env : StringEnv}

theorem Fits.mono {smaller larger : Nat} (fits : Fits env this larger)
    (le : smaller ≤ larger) : Fits env this smaller := by
  intro capacity small
  have bound : allocCapacity this smaller ≤
      max 8192 (allocCapacity this larger) := allocCapacity_le le
  exact fits capacity (by omega)

theorem alloc_of_fits {size : Nat} (positive : 0 < size)
    (fits : env.sizeHint (size + tara) ≤ intMax) :
    alloc env size = some none ∧ env.succeeds (env.sizeHint (size + tara)) = false ∨
      ∃ room, size ≤ room ∧ alloc env size = some (some ⟨List.replicate room 0, 0⟩) := by
  have enough := env.enough (size + tara)
  have notZero : ¬ (size : Int) ≤ 0 := by omega
  unfold alloc
  dsimp only
  rw [if_neg notZero, Int.toNat_natCast, if_pos fits]
  cases succeeds : env.succeeds (env.sizeHint (size + tara)) with
  | false => exact Or.inl ⟨rfl, rfl⟩
  | true =>
    unfold tara at enough
    exact Or.inr ⟨env.sizeHint (size + tara) - tara, by
      unfold tara
      omega, rfl⟩

def taken (s : Option Source) (len : Int) : Nat :=
  if len < 0 then (s.map Source.strlen).getD 0 else len.toNat

def endOf (start : Nat) (s : Option Source) (len : Nat) : Nat :=
  if s.isSome then start + len else start

/-- A terminated string of this length in a block that has room for the
text. -/
structure Placed (impl : StringImpl) (fLength room : Nat) : Prop where
  length_eq : impl.fLength = fLength
  room_lt : room < impl.content.length
  nul : impl.content[impl.fLength]? = some 0

theorem Placed.terminated {fLength room : Nat}
    (placed : Placed impl fLength room) : Terminated (some impl) :=
  terminated_of_nul placed.nul

variable {start : Nat}

theorem place_placed {len : Nat} (s : Option Source) (room : start + len < impl.content.length) :
    ∃ result, place impl start s len = some (some result) ∧
      Placed result (endOf start s len) (start + len) ∧
      result.content.length = impl.content.length ∧
      ∀ i, result.fLength < i → result.content[i]? = impl.content[i]? := by
  cases s with
  | none =>
    have inside : start + [(0 : Byte)].length ≤ impl.content.length := by
      rw [length_singleton]
      omega
    rcases overwrite_of_fits inside with ⟨content, written⟩
    have sameLength := length_overwrite written
    have nul := getElem?_overwrite_inside written Nat.zero_lt_one
    have copied : place impl start none len = some (some ⟨content, start⟩) := by
      simp only [place, written, bind_eq_bind, bind_some]
    refine ⟨⟨content, start⟩, copied, ⟨rfl, ?_, nul⟩, sameLength, ?_⟩
    · rw [sameLength]
      exact room
    · intro i behind
      apply getElem?_overwrite_behind written
      rw [length_singleton]
      exact behind
  | some s =>
    have fits : start + (s.bytes len).length ≤ impl.content.length := by
      rw [length_bytes]
      omega
    rcases overwrite_of_fits fits with ⟨first, copied⟩
    have firstLength := length_overwrite copied
    have inside : start + len + [(0 : Byte)].length ≤ first.length := by
      rw [length_singleton]
      omega
    rcases overwrite_of_fits inside with ⟨content, written⟩
    have sameLength := (length_overwrite written).trans firstLength
    have nul := getElem?_overwrite_inside written Nat.zero_lt_one
    have both : place impl start (some s) len = some (some ⟨content, start + len⟩) := by
      simp only [place, copied, written, bind_eq_bind, bind_some]
    refine ⟨⟨content, start + len⟩, both, ⟨rfl, ?_, nul⟩, sameLength, ?_⟩
    · rw [sameLength]
      exact room
    · intro i behind
      have kept : content[i]? = first[i]? := by
        apply getElem?_overwrite_behind written
        rw [length_singleton]
        exact behind
      have keptBefore : first[i]? = impl.content[i]? := by
        apply getElem?_overwrite_behind copied
        rw [length_bytes]
        exact le_of_lt behind
      exact kept.trans keptBefore

theorem set_inPlace (env : StringEnv)
    (s : Option Source) {len : Int} (room : start + taken s len < impl.content.length) :
    ∃ result, set env (some impl) start s len = some (some result) ∧
      Placed result (endOf start s (taken s len)) (start + taken s len) ∧
      result.content.length = impl.content.length ∧
      ∀ i, result.fLength < i → result.content[i]? = impl.content[i]? := by
  rcases place_placed s room with ⟨result, placed⟩
  refine ⟨result, ?_, placed.2⟩
  have enough : ¬ capacity (some impl) ≤ start + taken s len := not_le.mpr room
  unfold taken at placed enough
  simp only [set, Int.toNat_natCast, enough, decide_false, Bool.and_false,
    Bool.false_eq_true, if_false]
  exact placed.1

def carried (this : StringRep) (start : Nat) : Bytes :=
  match this with
  | none => []
  | some oldImpl => oldImpl.content.take (min start oldImpl.fLength)

theorem length_carried_le (this : StringRep) (start : Nat) :
    (carried this start).length ≤ start := by
  cases this with
  | none => exact zero_le start
  | some oldImpl =>
    unfold carried
    rw [length_take]
    omega

theorem set_large (env : StringEnv) (this : StringRep) (start : Nat) (s : Option Source) (len : Int)
    (positive : 0 < start + taken s len) (large : capacity this ≤ start + taken s len) :
    set env this start s len = (do
      let grown ← alloc env (allocCapacity this (start + taken s len) : Nat)
      match grown with
      | none => some this
      | some impl =>
        let content ← overwrite impl.content 0 (carried this start)
        place ⟨content, impl.fLength⟩ start s (taken s len)) := by
  have grows : (decide (0 < (start : Int).toNat + taken s len) &&
      decide (capacity this ≤ (start : Int).toNat + taken s len)) = true := by
    rw [Int.toNat_natCast, decide_eq_true positive, decide_eq_true large]
    rfl
  cases this with
  | none => exact if_pos grows
  | some impl => exact if_pos grows

theorem set_grown (s : Option Source) {len : Int} (positive : 0 < start + taken s len)
    (large : capacity this ≤ start + taken s len)
    (fitting : env.sizeHint (allocCapacity this (start + taken s len) + tara) ≤ intMax) :
    set env this start s len = some this ∧ ¬ Found env this (start + taken s len) ∨
      ∃ result, set env this start s len = some (some result) ∧
        Placed result (endOf start s (taken s len))
          (start + taken s len) ∧
        ∀ i, result.fLength < i → i < result.content.length → result.content[i]? = some 0 := by
  have bigger : start + taken s len < allocCapacity this (start + taken s len) := by
    have either := lt_allocCapacity this (start + taken s len)
    omega
  rw [set_large env this start s len positive large]
  rcases alloc_of_fits (by omega) fitting with ⟨refused, noRoom⟩ | ⟨room, roomy, granted⟩
  · rw [refused]
    refine Or.inl ⟨rfl, ?_⟩
    intro found
    rw [found large] at noRoom
    cases noRoom
  · rw [granted]
    simp only [bind_eq_bind, bind_some]
    have short := length_carried_le this start
    have inside : 0 + (carried this start).length ≤ (List.replicate room (0 : Byte)).length := by
      rw [length_replicate]
      omega
    rcases overwrite_of_fits inside with ⟨content, copied⟩
    have sameLength := length_overwrite copied
    rw [length_replicate] at sameLength
    have hasRoom : start + taken s len < (⟨content, 0⟩ : StringImpl).content.length :=
      (lt_of_lt_of_le bigger roomy).trans_eq sameLength.symm
    rcases place_placed s hasRoom with ⟨result, placed, isPlaced, resultLength, frame⟩
    rw [copied]
    refine Or.inr ⟨result, placed, isPlaced, ?_⟩
    intro i behind inBlock
    have afterStart : start ≤ result.fLength := by
      rw [isPlaced.length_eq]
      unfold endOf
      split <;> omega
    have zero : (List.replicate room (0 : Byte))[i]? = some 0 := by
      rw [resultLength] at inBlock
      rw [getElem?_replicate, if_pos (inBlock.trans_eq sameLength)]
    have kept : content[i]? = (List.replicate room (0 : Byte))[i]? :=
      getElem?_overwrite_behind copied (by omega)
    exact (frame i behind).trans (kept.trans zero)

private theorem set_toNat (env : StringEnv) (this : StringRep) (start : Int)
    (s : Option Source) (len : Int) :
    set env this start s len = set env this (start.toNat : Nat) s len := by
  unfold set
  rw [Int.toNat_natCast]

theorem set_terminated (terminated : Terminated this) (start : Int) (s : Option Source)
    (len : Int) (fits : Fits env this (start.toNat + taken s len)) :
    ∃ result, set env this start s len = some result ∧ Terminated result ∧
      length result ≤ max (length this) (start.toNat + taken s len) := by
  rw [set_toNat]
  have endOf_le : endOf start.toNat s (taken s len) ≤ start.toNat + taken s len := by
    unfold endOf
    split <;> omega
  by_cases large : capacity this ≤ start.toNat + taken s len
  · by_cases positive : 0 < start.toNat + taken s len
    · rcases set_grown s positive large (fits _ (le_max_right _ _)) with
        ⟨kept, _⟩ | ⟨result, placed, isPlaced, _⟩
      · exact ⟨this, kept, terminated, le_max_left _ _⟩
      · refine ⟨some result, placed, isPlaced.terminated, ?_⟩
        have lengthIs := isPlaced.length_eq
        simp only [length]
        omega
    · cases this with
      | none =>
        refine ⟨none, ?_, terminated, zero_le _⟩
        unfold taken at positive
        simp only [set, Int.toNat_natCast, positive, decide_false,
          Bool.false_and, Bool.false_eq_true, if_false]
      | some impl =>
        have room := terminated.1
        simp only [capacity] at large
        omega
  · cases this with
    | none => exact absurd (zero_le _) large
    | some impl =>
      rcases set_inPlace env s (Nat.lt_of_not_le large) with ⟨result, placed, isPlaced, _⟩
      refine ⟨some result, placed, isPlaced.terminated, ?_⟩
      have lengthIs := isPlaced.length_eq
      simp only [length]
      omega

theorem overwrite_terminated {values : Bytes} (terminated : Terminated (some impl))
    (inside : start + values.length ≤ impl.fLength) :
    ∃ content, overwrite impl.content start values = some content ∧
      content.length = impl.content.length ∧
      Terminated (some ⟨content, impl.fLength⟩) := by
  have fits : start + values.length ≤ impl.content.length :=
    inside.trans (le_of_lt terminated.1)
  rcases overwrite_of_fits fits with ⟨content, written⟩
  refine ⟨content, written, length_overwrite written, terminated_of_nul ?_⟩
  have kept := getElem?_overwrite_behind written inside
  exact kept.trans terminated.2

end StringRep

end Coast
