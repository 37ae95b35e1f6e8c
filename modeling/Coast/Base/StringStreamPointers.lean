import Coast.Base.StringStreamBuf

/-!
# The pointers of a string stream

As long as the put position is inside of the buffer the length of the string
follows it, and a buffer that grows keeps its text and its positions.
-/

namespace Coast

open Overwrite Option

namespace StringRep

def block : StringRep → Bytes
  | none => []
  | some impl => impl.content

theorem length_block (s : StringRep) : s.block.length = capacity s := by
  cases s <;> rfl

/-- The buffer of a string: the length is below the capacity, and an `int`
can say the capacity. -/
structure Usable (s : StringRep) : Prop where
  room : s.isSome → length s < capacity s
  limit : capacity s ≤ intMax

theorem Usable.length_le {s : StringRep} (usable : Usable s) : length s ≤ capacity s - 1 := by
  cases s with
  | none => exact Nat.zero_le _
  | some impl =>
    have := usable.room rfl
    omega

theorem alloc_usable {env : StringEnv} {size : Nat} (positive : 0 < size)
    (fits : env.sizeHint (size + tara) ≤ intMax) :
    ∃ s, alloc env size = some s ∧ Usable s ∧ text s = [] := by
  have enough := env.enough (size + tara)
  have notZero : ¬ (size : Int) ≤ 0 := by omega
  unfold alloc
  dsimp only
  rw [if_neg notZero, Int.toNat_natCast, if_pos fits]
  cases env.succeeds (env.sizeHint (size + tara)) with
  | false => exact ⟨none, rfl, ⟨nofun, Nat.zero_le _⟩, rfl⟩
  | true =>
    refine ⟨_, rfl, ⟨fun _ => ?_, ?_⟩, rfl⟩
    · simp only [length, capacity, if_true, List.length_replicate]
      omega
    · simp only [capacity, if_true, List.length_replicate]
      omega

/-- The length that `Reserve` asks for when a stream needs the position
`p`. -/
def needed (s : StringRep) (p : Int) : Nat := length s + (p - capacity s + 1).toNat

def grownSize (env : StringEnv) (s : StringRep) (p : Int) : Nat :=
  env.sizeHint (allocCapacity s (needed s p) + tara)

/-- `Reserve` makes room for the position `p`. -/
structure Grows (env : StringEnv) (s : StringRep) (p : Int) : Prop where
  needs : capacity s ≤ needed s p
  fits : grownSize env s p ≤ intMax
  found : env.succeeds (grownSize env s p) = true
  room : p + tara < grownSize env s p

theorem length_carried {s : StringRep} (usable : Usable s) :
    (carried s (length s)).length = length s := by
  cases s with
  | none => rfl
  | some impl =>
    have room := usable.room rfl
    simp only [length, capacity] at room
    simp only [carried, length, List.length_take]
    omega

theorem getElem?_carried (s : StringRep) {i : Nat} (inside : i < length s) :
    (carried s (length s))[i]? = s.block[i]? := by
  cases s with
  | none => cases inside
  | some impl =>
    have inFront : i < min (length (some impl)) impl.fLength := by
      simpa only [length, Nat.min_self] using inside
    exact List.getElem?_take_of_lt inFront

theorem reserve_of_grows {env : StringEnv} {s : StringRep} {p : Int}
    (beyond : capacity s ≤ p) (grows : Grows env s p) (usable : Usable s) :
    ∃ impl, reserve env s (p - capacity s + 1) = some (some impl) ∧
      impl.fLength = length s ∧ p < impl.content.length ∧
      Usable (some impl) ∧
      ∀ i, i < length s → impl.content[i]? = s.block[i]? := by
  have lengthLe := usable.length_le
  have fits := grows.fits
  have roomy := grows.room
  have nonneg : max (p - capacity s + 1) 0 = p - capacity s + 1 := by omega
  have takes : length s + taken none (p - capacity s + 1) = needed s p := by
    have notNeg : ¬ p - capacity s + 1 < 0 := by omega
    simp only [taken, notNeg, if_false, needed]
  have positive : 0 < needed s p := by
    unfold needed
    omega
  have allocates : alloc env (allocCapacity s (needed s p) : Nat) =
      some (some ⟨List.replicate (grownSize env s p - tara) 0, 0⟩) := by
    have notZero : ¬ (allocCapacity s (needed s p) : Int) ≤ 0 := by
      have := lt_allocCapacity s (needed s p)
      omega
    have found := grows.found
    unfold grownSize at fits found
    simp only [alloc, notZero, if_false, Int.toNat_natCast, fits, if_true, found, grownSize]
  have short := length_carried_le s (length s)
  have inside : 0 + (carried s (length s)).length ≤
      (List.replicate (grownSize env s p - tara) (0 : Byte)).length := by
    rw [List.length_replicate]
    omega
  rcases overwrite_of_fits inside with ⟨copied, copies⟩
  have copiedLength := length_overwrite copies
  rw [List.length_replicate] at copiedLength
  have alsoInside : length s + [(0 : Byte)].length ≤ copied.length := by
    rw [List.length_singleton]
    omega
  rcases overwrite_of_fits alsoInside with ⟨content, terminates⟩
  have contentLength := length_overwrite terminates
  refine ⟨⟨content, length s⟩, ?_, rfl, ?_, ⟨fun _ => ?_, ?_⟩, ?_⟩
  · unfold reserve
    rw [nonneg, set_large env s (length s) none _ (by rwa [takes])
      (by rw [takes]; exact grows.needs), takes, allocates]
    simp only [bind_eq_bind, bind_some, copies, place, terminates]
  · dsimp only
    omega
  · show length s < content.length
    omega
  · show content.length ≤ intMax
    omega
  · intro i inText
    have shown : i < (carried s (length s)).length := by
      rwa [length_carried usable]
    have placed := getElem?_overwrite_inside copies shown
    rw [Nat.zero_add] at placed
    have kept := getElem?_overwrite_front terminates inText
    rw [kept, placed, getElem?_carried s inText]

end StringRep

namespace StringStreamBuf

open StringRep

theorem asInt_of_small {n : Int} (nonneg : 0 ≤ n) (small : n ≤ intMax) : asInt n = n := by
  have limit : intMax = 2147483647 := rfl
  unfold asInt
  omega

/-- The pointers are inside of the block. -/
structure Inside (this : StringStreamBuf) : Prop where
  usable : Usable this.fStore
  pptr_nonneg : 0 ≤ this.pptr
  pptr_le : this.pptr ≤ (capacity this.fStore - 1 : Nat)
  epptr_eq : this.epptr = (capacity this.fStore - 1 : Nat)

variable {this : StringStreamBuf}

theorem Inside.pptr_lt (inside : Inside this)
    {impl : StringImpl} (present : this.fStore = some impl) :
    this.pptr < impl.content.length := by
  have room := inside.usable.room
  have le := inside.pptr_le
  simp only [present, length, capacity, isSome_some, forall_const] at room le
  omega

/-- What `AdjustStringLength` makes of a stream whose put position is inside
of the buffer. -/
def adjusted (this : StringStreamBuf) : StringStreamBuf :=
  match this.fStore with
  | none => this
  | some impl =>
    if this.fOpenMode.out ∧ (impl.fLength : Int) < this.pptr then
      { this with
        fStore := some ⟨impl.content.set this.pptr.toNat 0,
          this.pptr.toNat⟩ }.setgetpointer (this.gptr - this.eback)
    else this

theorem adjustStringLength_eq
    (inside : Inside this) : this.adjustStringLength = some this.adjusted := by
  unfold adjustStringLength adjusted
  cases present : this.fStore with
  | none => rfl
  | some impl =>
    have inBlock : 0 ≤ this.pptr ∧ this.pptr < impl.content.length :=
      ⟨inside.pptr_nonneg, inside.pptr_lt present⟩
    cases out : this.fOpenMode.out with
    | false =>
      simp only [Bool.not_false, if_true, Bool.false_eq_true, false_and, if_false]
    | true =>
      simp only [Bool.not_true, Bool.false_eq_true, if_false, inBlock, and_self, if_true, true_and]
      split <;> rfl

/-- The length follows the put position; nothing else of the text
changes. -/
structure Adjusted (this after : StringStreamBuf) : Prop where
  fOpenMode_eq : after.fOpenMode = this.fOpenMode
  pptr_eq : after.pptr = this.pptr
  epptr_eq : after.epptr = this.epptr
  isSome_eq : after.fStore.isSome = this.fStore.isSome
  capacity_eq : capacity after.fStore = capacity this.fStore
  length_eq : length after.fStore =
    if this.fOpenMode.out then max (length this.fStore) this.pptr.toNat
    else length this.fStore
  block_eq : ∀ i, (this.fOpenMode.out = true →
      (length this.fStore : Int) < this.pptr → i ≠ this.pptr.toNat) →
    after.fStore.block[i]? = this.fStore.block[i]?

theorem adjusted_spec (inside : Inside this) : Adjusted this this.adjusted := by
  have nonneg := inside.pptr_nonneg
  have le := inside.pptr_le
  cases present : this.fStore with
  | none =>
    have same : this.adjusted = this := by
      unfold adjusted
      rw [present]
    have zero : this.pptr = 0 := by
      rw [present] at le
      exact Int.le_antisymm le nonneg
    rw [same]
    refine ⟨rfl, rfl, rfl, rfl, rfl, ?_, fun _ _ => rfl⟩
    simp only [present, length, zero, Int.toNat_zero, Nat.max_self, ite_self]
  | some impl =>
    by_cases longer : this.fOpenMode.out = true ∧ (impl.fLength : Int) < this.pptr
    · have grown : this.adjusted = { this with
          fStore := some ⟨impl.content.set this.pptr.toNat 0, this.pptr.toNat⟩ }.setgetpointer
              (this.gptr - this.eback) := by
        unfold adjusted
        rw [present]
        simp only [longer, and_self, if_true]
      rw [grown]
      refine ⟨rfl, rfl, rfl, ?_, ?_, ?_, ?_⟩
      · rw [present]
        rfl
      · simp only [setgetpointer, capacity, present, List.length_set]
      · simp only [setgetpointer, length, present, longer.1, if_true]
        omega
      · intro i elsewhere
        simp only [present, length] at elsewhere
        simp only [setgetpointer, block, present]
        exact List.getElem?_set_ne (elsewhere longer.1 longer.2).symm
    · have same : this.adjusted = this := by
        unfold adjusted
        rw [present]
        simp only [longer, if_false]
      rw [same]
      refine ⟨rfl, rfl, rfl, rfl, rfl, ?_, fun _ _ => rfl⟩
      simp only [present, length]
      split
      · rename_i out
        simp only [out, true_and] at longer
        omega
      · rfl

theorem Adjusted.inside {after : StringStreamBuf}
    (adjusts : Adjusted this after) (inside : Inside this) :
    Inside after where
  usable := {
    room := by
      intro present
      rw [adjusts.isSome_eq] at present
      have room := inside.usable.room present
      have le := inside.pptr_le
      have lengthIs := adjusts.length_eq
      rw [adjusts.capacity_eq]
      split at lengthIs <;> omega
    limit := by
      rw [adjusts.capacity_eq]
      exact inside.usable.limit }
  pptr_nonneg := by
    rw [adjusts.pptr_eq]
    exact inside.pptr_nonneg
  pptr_le := by
    rw [adjusts.pptr_eq, adjusts.capacity_eq]
    exact inside.pptr_le
  epptr_eq := by
    rw [adjusts.epptr_eq, adjusts.capacity_eq]
    exact inside.epptr_eq

theorem adjusted_adjusted (inside : Inside this) : this.adjusted.adjusted = this.adjusted := by
  have adjusts := adjusted_spec inside
  have lengthIs := adjusts.length_eq
  generalize this.adjusted = now at adjusts lengthIs
  unfold adjusted
  cases present : now.fStore with
  | none => rfl
  | some impl =>
    have notLonger : ¬ (now.fOpenMode.out = true ∧ (impl.fLength : Int) < now.pptr) := by
      rintro ⟨out, longer⟩
      rw [adjusts.fOpenMode_eq] at out
      rw [if_pos out, present] at lengthIs
      rw [adjusts.pptr_eq] at longer
      simp only [length] at lengthIs
      omega
    exact if_neg notLonger

/-- The buffer can grow to hold the position `p`: everything in front of the
put position is text, the get position is in the text, and the `String` makes
room. -/
structure CanGrow (env : StringEnv) (this : StringStreamBuf) (p : Int) : Prop where
  atEnd : this.pptr = length this.fStore
  readable : this.gptr - this.eback ≤ length this.fStore
  grows : Grows env this.fStore p

/-- There is room behind `p`, and all else is as it was. -/
structure Grown (this after : StringStreamBuf) (p : Int) : Prop where
  inside : Inside after
  fOpenMode_eq : after.fOpenMode = this.fOpenMode
  pptr_eq : after.pptr = this.pptr
  room : p < capacity after.fStore
  length_eq : length after.fStore = length this.fStore
  block_eq : ∀ i, i < length this.fStore → after.fStore.block[i]? = this.fStore.block[i]?

variable {mode : OpenMode}

theorem setbufpointers_eq {impl : StringImpl} (present : this.fStore = some impl)
    (usable : Usable this.fStore) {getoffset : Int} (getNonneg : 0 ≤ getoffset)
    (readable : getoffset ≤ impl.fLength) {putoffset newoffset : Int}
    (moves : this.atEnd putoffset = (newoffset, mode)) (nonneg : 0 ≤ newoffset)
    (inBlock : newoffset < impl.content.length) :
    this.setbufpointers getoffset putoffset =
      some { { this with fOpenMode := mode }.setgetpointer getoffset with
        pptr := newoffset
        epptr := (capacity this.fStore - 1 : Nat) } := by
  have limit := usable.limit
  have small : asInt newoffset = newoffset := by
    apply asInt_of_small nonneg
    simp only [present, capacity] at limit
    omega
  have positive : 0 < impl.content.length := by omega
  have lastByte : ((impl.content.length : Int) - 1) = (impl.content.length - 1 : Nat) := by omega
  unfold setbufpointers
  rw [moves]
  simp only [setgetpointer, present, pbump, small, Int.zero_add, capacity, positive, if_true,
    length, nonneg, inBlock, getNonneg, readable, and_self, lastByte]

theorem putoffset_eq (inside : Inside this) :
    (if this.fStore.isSome = true ∧ 0 < this.pptr then this.pptr else 0) = this.pptr := by
  have nonneg := inside.pptr_nonneg
  have le := inside.pptr_le
  cases present : this.fStore with
  | none =>
    simp only [present, capacity] at le
    simp only [isSome_none, Bool.false_eq_true, false_and, if_false]
    omega
  | some impl =>
    simp only [isSome_some, true_and, ite_eq_left_iff]
    omega

variable {env : StringEnv} {p : Int}

theorem regrow_of_canGrow (inside : Inside this) (beyond : capacity this.fStore ≤ p)
    (canGrow : CanGrow env this p) :
    ∃ fStore after, StringRep.reserve env this.fStore (p - capacity this.fStore + 1) = some fStore ∧
      { this with fStore := fStore }.setbufpointers
        (if this.fStore.isSome = true ∧ this.eback < this.gptr then
          this.gptr - this.eback
        else 0) this.pptr = some after ∧
      after.epptr = (capacity after.fStore : Int) - 1 ∧
      Grown this after p := by
  rcases reserve_of_grows beyond canGrow.grows inside.usable with
      ⟨impl, reserves, lengthIs, room, usable, kept⟩
  have atEnd := canGrow.atEnd
  have readable := canGrow.readable
  have nonneg := inside.pptr_nonneg
  have le := inside.pptr_le
  have getNonneg : 0 ≤ (if this.fStore.isSome = true ∧
      this.eback < this.gptr then this.gptr - this.eback else 0) := by
    split <;> omega
  have getReadable : (if this.fStore.isSome = true ∧
      this.eback < this.gptr then this.gptr - this.eback else 0) ≤ (impl.fLength : Int) := by
    split <;> omega
  have inBlock : this.pptr < impl.content.length := by omega
  have notBefore : ¬ this.pptr < (impl.fLength : Int) := by omega
  have noJump : { this with fStore := some impl }.atEnd this.pptr =
      (this.pptr, this.fOpenMode) := by
    simp only [StringStreamBuf.atEnd, length, notBefore, and_false, if_false]
  refine ⟨some impl, _, reserves, setbufpointers_eq rfl usable getNonneg
    getReadable noJump nonneg inBlock, ?_, ?_⟩
  · simp only [setgetpointer, capacity]
    omega
  · refine ⟨⟨usable, nonneg, ?_, rfl⟩, rfl, rfl, room, lengthIs, kept⟩
    simp only [setgetpointer, capacity]
    omega

theorem doreserve_of_canGrow (inside : Inside this) (beyond : capacity this.fStore ≤ p)
    (canGrow : CanGrow env this.adjusted p) :
    ∃ after, this.doreserve env p = some after ∧ Grown this.adjusted after p := by
  have adjusts := adjusted_spec inside
  have insideNow := adjusts.inside inside
  rw [← adjusts.capacity_eq] at beyond
  rcases regrow_of_canGrow insideNow beyond canGrow with
      ⟨fStore, after, reserves, sets, lastByte, grown⟩
  refine ⟨after, ?_, grown⟩
  unfold doreserve
  rw [adjustStringLength_eq inside]
  simp only [bind_eq_bind, bind_some, ne_eq, canGrow.atEnd, not_true_eq_false, if_false]
  rw [← canGrow.atEnd, putoffset_eq insideNow, reserves, bind_some, sets]
  exact if_pos lastByte

theorem reserve_of_canGrow (inside : Inside this) (beyond : capacity this.fStore ≤ p)
    (canGrow : CanGrow env this.adjusted p) :
    ∃ after, this.reserve env p = some after ∧ Grown this.adjusted after p := by
  unfold StringStreamBuf.reserve
  rw [if_pos beyond]
  exact doreserve_of_canGrow inside beyond canGrow

structure Stored (this after : StringStreamBuf) (c : Byte) : Prop where
  inside : Inside after
  fOpenMode_eq : after.fOpenMode = this.fOpenMode
  pptr_eq : after.pptr = this.pptr + 1
  length_eq : length after.fStore = length this.fStore
  inBlock : this.pptr.toNat < this.fStore.block.length
  block_eq : after.fStore.block = this.fStore.block.set this.pptr.toNat c

theorem store_of_room (inside : Inside this) (room : this.pptr < this.epptr) (c : Byte) :
    ∃ after, this.store c = some after ∧ Stored this after c := by
  have nonneg := inside.pptr_nonneg
  have end_ := inside.epptr_eq
  cases present : this.fStore with
  | none =>
    rw [present] at end_
    simp only [capacity] at end_
    omega
  | some impl =>
    have inBlock := inside.pptr_lt present
    have usable := inside.usable
    have within : 0 ≤ this.pptr ∧ this.pptr < impl.content.length := ⟨nonneg, inBlock⟩
    refine ⟨{ this with
      fStore := some { impl with
        content := impl.content.set this.pptr.toNat c }
      pptr := this.pptr + 1 }, ?_, ?_, rfl, rfl, ?_, ?_, ?_⟩
    · unfold store
      rw [present]
      exact if_pos within
    · rw [present] at end_
      simp only [capacity] at end_
      constructor
      · have room' := usable.room
        have limit := usable.limit
        rw [present] at room' limit
        simp only [length, capacity] at room' limit
        constructor <;> simp only [length, capacity, List.length_set]
        · exact fun _ => room' rfl
        · exact limit
      · dsimp only
        omega
      · simp only [capacity, List.length_set]
        omega
      · simp only [capacity, List.length_set]
        exact end_
    · rw [present]
      rfl
    · rw [present]
      simp only [block]
      omega
    · rw [present]
      rfl

theorem sputc_stored {c : Byte} (inside : Inside this)
    (canGrow : this.epptr ≤ this.pptr → CanGrow env this.adjusted (this.pptr + 1)) :
    ∃ now after, this.sputc env c = some after ∧ Stored now after c ∧
      (now = this ∧ this.pptr < this.epptr ∨
        Grown this.adjusted now (this.pptr + 1) ∧ this.epptr ≤ this.pptr) := by
  have end_ := inside.epptr_eq
  have le := inside.pptr_le
  have nonneg := inside.pptr_nonneg
  unfold sputc
  by_cases room : this.pptr < this.epptr
  · rcases store_of_room inside room c with ⟨after, stores, stored⟩
    rw [if_pos room]
    exact ⟨this, after, stores, stored, .inl ⟨rfl, room⟩⟩
  · have full : this.epptr ≤ this.pptr := Int.not_lt.mp room
    have beyond : capacity this.fStore ≤ this.pptr + 1 := by omega
    rcases reserve_of_canGrow inside beyond (canGrow full) with ⟨now, reserves, grown⟩
    have pptrIs := grown.pptr_eq.trans (adjusted_spec inside).pptr_eq
    have nowRoom : now.pptr < now.epptr := by
      have room := grown.room
      rw [pptrIs, grown.inside.epptr_eq]
      omega
    rcases store_of_room grown.inside nowRoom c with ⟨after, stores, stored⟩
    refine ⟨now, after, ?_, stored, .inr ⟨grown, full⟩⟩
    have start : 0 ≤ this.pptr ∧ (this.fStore = none → this.pptr = 0) := by
      refine ⟨nonneg, ?_⟩
      intro noBlock
      rw [noBlock] at le
      simp only [capacity] at le
      omega
    have notEof : ¬ (c.toNat : Int) = eof := by
      unfold eof
      omega
    have sameByte : BitVec.ofInt 8 (c.toNat : Int) = c := by
      rw [BitVec.ofInt_natCast, BitVec.ofNat_toNat, BitVec.setWidth_eq]
    rw [if_neg room]
    unfold overflow
    rw [if_pos start, if_pos notEof, reserves]
    simp only [bind_eq_bind, bind_some, nowRoom, if_true, sameByte, stores]

/-- The pointers after a seek. -/
structure Sought (this : StringStreamBuf) (mode : OpenMode)
    (result : StringStreamBuf × Int) : Prop where
  inside : Inside result.1
  fOpenMode_eq : result.1.fOpenMode = this.fOpenMode
  fStore_eq : result.1.fStore = this.fStore
  out : mode.out = true → result.1.pptr = result.2 ∧ 0 ≤ result.2
  notOut : mode.out = false → result.1.pptr = this.pptr

def appended (this : StringStreamBuf) (p : Int) : Int :=
  if this.fOpenMode.app ∧ p < length this.fStore ∧ 0 < length this.fStore then
    length this.fStore
  else p

theorem appended_inside (inside : Inside this) (nonneg : 0 ≤ p) (room : p < capacity this.fStore) :
    0 ≤ this.appended p ∧ this.appended p < capacity this.fStore := by
  have lengthLe := inside.usable.length_le
  unfold appended
  split <;> omega

theorem pbump_inside (inside : Inside this) (nonneg : 0 ≤ p) (room : p < capacity this.fStore) :
    (if this.fStore.isSome then { this with pptr := 0 }.pbump p
      else { this with pptr := 0 }) = { this with pptr := p } ∧
      Inside { this with pptr := p } := by
  have limit := inside.usable.limit
  have small : asInt p = p := asInt_of_small nonneg (by omega)
  constructor
  · cases present : this.fStore with
    | none =>
      rw [present] at room
      simp only [capacity] at room
      omega
    | some impl =>
      simp only [isSome_some, if_true, pbump, small, Int.zero_add]
  · refine ⟨inside.usable, nonneg, ?_, inside.epptr_eq⟩
    dsimp only
    omega

theorem setPositions_sought (inside : Inside this) (nonneg : 0 ≤ p)
    (room : mode.out = true → p < capacity this.fStore) :
    Sought this mode (this.setPositions p mode) := by
  obtain ⟨now, nowIs⟩ : ∃ now, now = if mode.in_ then this.setgetpointer p else this := ⟨_, rfl⟩
  have frame : now.fStore = this.fStore ∧ now.fOpenMode = this.fOpenMode ∧
      now.pptr = this.pptr ∧ now.epptr = this.epptr := by
    rw [nowIs]
    split <;> exact ⟨rfl, rfl, rfl, rfl⟩
  rcases frame with ⟨sameStore, sameMode, samePut, sameEnd⟩
  have insideNow : Inside now := by
    refine ⟨?_, ?_, ?_, ?_⟩
    · rw [sameStore]
      exact inside.usable
    · rw [samePut]
      exact inside.pptr_nonneg
    · rw [samePut, sameStore]
      exact inside.pptr_le
    · rw [sameEnd, sameStore]
      exact inside.epptr_eq
  unfold setPositions
  rw [← nowIs]
  cases out : mode.out with
  | false =>
    simp only [Bool.false_eq_true, if_false]
    exact ⟨insideNow, sameMode, sameStore,
      fun isOut => (nomatch out.symm.trans isOut), fun _ => samePut⟩
  | true =>
    have roomNow := room out
    rw [← sameStore] at roomNow
    have target := appended_inside insideNow nonneg roomNow
    have moves := pbump_inside insideNow target.1 target.2
    have result : (if true = true then
        (if now.fStore.isSome then
            { now with pptr := 0 }.pbump (now.appended p)
          else { now with pptr := 0 }, now.appended p)
        else (now, p)) =
        ({ now with pptr := now.appended p }, now.appended p) := by
      rw [if_pos rfl, moves.1]
    refine Eq.mpr (congrArg (Sought this mode) result) ?_
    exact ⟨moves.2, sameMode, sameStore, fun _ => ⟨rfl, target.1⟩,
      fun notOut => (nomatch out.symm.trans notOut)⟩

def Reaches (env : StringEnv) (this : StringStreamBuf) (p : Int) (mode : OpenMode) : Prop :=
  mode.out = true → capacity this.fStore ≤ p → CanGrow env this p

theorem seekpos_sought (inside : Inside this) (nonneg : 0 ≤ p)
    (reaches : Reaches env this.adjusted p mode) :
    ∃ result, this.seekpos env p mode = some result ∧
      (mode.out = false ∧ result = (this.adjusted, eof) ∨
        ∃ now, (now = this.adjusted ∨ Grown this.adjusted now p) ∧ Sought now mode result) := by
  have adjusts := adjusted_spec inside
  have insideNow := adjusts.inside inside
  unfold seekpos
  rw [adjustStringLength_eq inside]
  simp only [bind_eq_bind, bind_some]
  by_cases beyond : (capacity this.adjusted.fStore : Int) ≤ p
  · rw [if_pos beyond]
    cases out : mode.out with
    | false =>
      exact ⟨(this.adjusted, eof), rfl, .inl ⟨rfl, rfl⟩⟩
    | true =>
      have canGrow : CanGrow env this.adjusted.adjusted p := by
        rw [adjusted_adjusted inside]
        exact reaches out beyond
      rcases reserve_of_canGrow insideNow beyond canGrow with ⟨now, reserves, grown⟩
      rw [adjusted_adjusted inside] at grown
      rw [reserves]
      exact ⟨_, rfl, .inr ⟨now, .inr grown,
        setPositions_sought grown.inside nonneg fun _ => grown.room⟩⟩
  · rw [if_neg beyond]
    exact ⟨_, rfl, .inr ⟨this.adjusted, .inl rfl,
      setPositions_sought insideNow nonneg fun _ => Int.not_le.mp beyond⟩⟩

/-- A seek fails or sets the pointers, once there is enough room. -/
theorem seekoff_sought {off : Int} {dir : SeekDir} (inside : Inside this)
    (reaches : 0 ≤ this.adjusted.target off dir mode →
      Reaches env this.adjusted (this.adjusted.target off dir mode) mode) :
    ∃ result, this.seekoff env off dir mode = some result ∧ (result = (this.adjusted, eof) ∧
          (mode.out = false ∨ this.adjusted.target off dir mode < 0) ∨
        ∃ now p, (now = this.adjusted ∨ Grown this.adjusted now p) ∧ Sought now mode result) := by
  have insideNow := (adjusted_spec inside).inside inside
  have again := adjusted_adjusted inside
  unfold seekoff
  rw [adjustStringLength_eq inside]
  simp only [bind_eq_bind, bind_some]
  by_cases negative : this.adjusted.target off dir mode < 0
  · rw [if_pos negative]
    exact ⟨_, rfl, .inl ⟨rfl, .inr negative⟩⟩
  · rw [if_neg negative]
    have nonneg := Int.not_lt.mp negative
    have alsoReaches := reaches nonneg
    rw [← again] at alsoReaches
    have seeks := seekpos_sought insideNow nonneg
      (by rw [again] at alsoReaches ⊢; exact alsoReaches)
    rw [again] at seeks
    rcases seeks with ⟨result, seeks, ⟨notOut, failed⟩ | ⟨now, is, sought⟩⟩
    · exact ⟨result, seeks, .inl ⟨failed, .inl notOut⟩⟩
    · exact ⟨result, seeks, .inr ⟨now, _, is, sought⟩⟩

end StringStreamBuf

end Coast
