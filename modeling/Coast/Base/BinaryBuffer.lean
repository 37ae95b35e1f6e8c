import Coast.Base.AnythingToken
import Coast.Base.StringMutators

/-!
# The memory for a binary buffer

`DoReadBinBuf` lets `String::Append` read as many characters as the text
announces.  `Append` asks for their block with an `int` and looks neither at
the block nor at its size.
-/

namespace Coast

open Overwrite StringRep

/-- `String::Append(istream, length)`, nothing when it writes outside of a
block. -/
def appendStream (mem : StringEnv) (this : StringRep) (s : IStream) (length : Int) :
    Option (StringRep × IStream) :=
  if length ≤ 0 then some (this, s)
  else do
    match ← reserve mem this length with
    | none => none
    | some impl =>
      let (text, s) := s.readBytes length.toNat
      let content ← overwrite impl.content impl.fLength text
      let content ← overwrite content (impl.fLength + text.length) [0]
      some (some ⟨content, impl.fLength + text.length⟩, s)

theorem readBytes_length_le (s : IStream) (n : Nat) : (s.readBytes n).1.length ≤ n := by
  unfold IStream.readBytes
  split
  · exact List.length_take_le n s.rest
  · exact Nat.zero_le n

theorem place_zeros {size : Nat} (positive : 0 < size) (len : Nat) :
    place ⟨List.replicate size 0, 0⟩ 0 none len = some (some ⟨List.replicate size 0, 0⟩) := by
  obtain ⟨size, rfl⟩ := Nat.exists_eq_add_of_lt positive
  rw [place, overwrite, if_pos (by simp)]
  simp [List.replicate_succ]

/-- For a string without a block `Reserve` finds an empty one, or none. -/
theorem reserve_none (mem : StringEnv) {length : Int} (positive : 0 < length) :
    reserve mem none length = alloc mem (length.toNat + 1 : Nat) := by
  have count : max length 0 = length := by
    omega
  have takes : taken none length = length.toNat := if_neg (by omega)
  have exact : allocCapacity none (0 + length.toNat) = length.toNat + 1 := by
    rw [Nat.zero_add]
    rfl
  have large := set_large mem none 0 none length (by rw [takes]; omega) (Nat.zero_le _)
  rw [takes, exact, alloc_natCast] at large
  rw [reserve, count, alloc_natCast]
  refine large.trans ?_
  split
  · split
    · have enough := mem.enough (length.toNat + 1 + tara)
      refine place_zeros ?_ length.toNat
      rw [askedFor, if_neg (Nat.succ_ne_zero _)]
      omega
    · rfl
  · rfl

theorem overwrite_zeros {size : Nat} {text : Bytes} (fits : text.length ≤ size) :
    overwrite (List.replicate size 0) 0 text =
      some (text ++ List.replicate (size - text.length) 0) := by
  rw [overwrite, Nat.zero_add, List.length_replicate, if_pos fits, List.drop_replicate]
  rfl

theorem overwrite_nul {room : Nat} (text : Bytes) (positive : 0 < room) :
    overwrite (text ++ List.replicate room 0) text.length [0] =
      some (text ++ List.replicate room 0) := by
  obtain ⟨room, rfl⟩ := Nat.exists_eq_add_of_lt positive
  rw [overwrite, if_pos (by simp)]
  simp [List.replicate_succ, List.drop_append]

/-- In a block that is found the characters that `read` gives are stored with
a NUL behind them, as many as the stream has. -/
theorem appendStream_none (mem : StringEnv) (s : IStream) {length : Int} (positive : 0 < length) :
    appendStream mem none s length =
      if askedFor mem (length.toNat + 1) ≤ intMax ∧
        mem.succeeds (askedFor mem (length.toNat + 1)) = true then
        let (text, s) := s.readBytes length.toNat
        some (some ⟨text ++ List.replicate
          (askedFor mem (length.toNat + 1) - tara - text.length) 0, text.length⟩, s)
      else none := by
  rw [appendStream, if_neg (by omega), reserve_none mem positive, alloc_natCast]
  by_cases fits : askedFor mem (length.toNat + 1) ≤ intMax
  · rw [if_pos fits]
    by_cases found : mem.succeeds (askedFor mem (length.toNat + 1)) = true
    · rw [if_pos found, if_pos ⟨fits, found⟩]
      have enough := mem.enough (length.toNat + 1 + tara)
      have short := readBytes_length_le s length.toNat
      have room : (s.readBytes length.toNat).1.length <
          askedFor mem (length.toNat + 1) - tara := by
        rw [askedFor, if_neg (Nat.succ_ne_zero _)]
        omega
      show (do
        let content ← overwrite (List.replicate (askedFor mem (length.toNat + 1) - tara) 0) 0
          (s.readBytes length.toNat).1
        let content ← overwrite content (0 + (s.readBytes length.toNat).1.length) [0]
        some (some (StringImpl.mk content (0 + (s.readBytes length.toNat).1.length)),
          (s.readBytes length.toNat).2)) = _
      rw [overwrite_zeros (Nat.le_of_lt room), Nat.zero_add]
      show (overwrite (_ ++ _) _ _ >>= _) = _
      rw [overwrite_nul _ (by omega)]
      rfl
    · rw [if_neg found, if_neg fun both => found both.2]
      rfl
  · rw [if_neg fits, if_neg fun both => fits both.1]
    rfl

/-- What `Append` has read when it returns is what the scanner takes for the
text of its token. -/
theorem readCount_of_appendStream {mem : StringEnv} {s after : IStream} {length : Int}
    {this : StringRep} (appended : appendStream mem none s length = some (this, after)) :
    readCount s length = (this.text, after) := by
  unfold readCount
  by_cases nothing : length ≤ 0
  · rw [appendStream, if_pos nothing] at appended
    rw [if_pos nothing]
    cases appended
    rfl
  · rw [if_neg nothing]
    rw [appendStream_none mem s (by omega)] at appended
    split at appended
    · cases appended
      exact Prod.ext (List.take_left' rfl).symm rfl
    · cases appended

/-- `Append` returns exactly when the block has a size that `Calloc` takes as
an `int` and is found. -/
theorem appendStream_isSome_iff (mem : StringEnv) (s : IStream) {length : Int}
    (positive : 0 < length) :
    (appendStream mem none s length).isSome ↔
      askedFor mem (length.toNat + 1) ≤ intMax ∧
        mem.succeeds (askedFor mem (length.toNat + 1)) = true := by
  rw [appendStream_none mem s positive]
  split
  · rename_i found
    exact iff_of_true rfl found
  · rename_i missing
    exact iff_of_false Bool.false_ne_true missing

namespace AnythingToken

/-- The announced length of a buffer and the stream at its first character,
behind the opening bracket. -/
def bufferBehind (s : IStream) : Option (Int × IStream) :=
  let (length, s) := extractLong s
  let (c, s) := (if s.good then s else s.clear).next
  if c = ch ';' then some (length, s) else none

/-- The buffer that the next token reads. -/
def bufferFrom : Nat → IStream → Option (Int × IStream)
  | 0, _ => none
  | fuel + 1, s =>
    match s.get with
    | (none, _) => none
    | (some c, s) =>
      if c = ch '[' then bufferBehind s
      else if c = ch '#' then bufferFrom fuel (skipToEOL s)
      else if isspace c then bufferFrom fuel s
      else none

def bufferAt (s : IStream) : Option (Int × IStream) := bufferFrom (s.rest.length + 1) s

/-- A text grows to this length through blocks that are found and have a size
that `Calloc` takes as an `int`. -/
def Holds (mem : StringEnv) (length : Nat) : Prop :=
  ∀ capacity, capacity ≤ max 8192 (length + cStrAllocIncrement) →
    mem.sizeHint (capacity + tara) ≤ intMax ∧
      mem.succeeds (mem.sizeHint (capacity + tara)) = true

/-- The next token is read inside the memory. -/
structure Stored (mem : StringEnv) (s : IStream) : Prop where
  buffer : ∀ length behind, bufferAt s = some (length, behind) →
    (appendStream mem none behind length).isSome
  /-- There is room for the text and, when it is in an error, for its dump. -/
  text : Holds mem (8 * (read s).1.text.length)

theorem stored_short {s : IStream} (none : bufferAt s = none)
    (short : (read s).1.text.length ≤ 128) : Stored exactEnv s where
  buffer := fun _ _ some => nomatch none.symm.trans some
  text := by
    intro capacity small
    have bound : capacity ≤ 8192 := by
      unfold cStrAllocIncrement at small
      omega
    refine ⟨?_, rfl⟩
    show capacity + tara ≤ intMax
    unfold tara intMax
    omega

end AnythingToken

end Coast
