import Mathlib.Data.List.Basic

/-!
# Frames

A message is cut into pieces.  A header that gives the length stands before
each piece, a mark behind it, and a frame of length zero ends the message.
-/

namespace Coast.Framing

/-- How a size is written in front of a chunk, and the mark behind it. -/
structure Coding (β : Type) where
  header : Nat → List β
  readHeader : List β → Option (Nat × List β)
  mark : List β
  reads : ∀ n rest, readHeader (header n ++ rest) = some (n, rest)
  filled : ∀ n, 0 < (header n).length

variable {β : Type} [DecidableEq β] (coding : Coding β)

def frame (piece : List β) : List β := coding.header piece.length ++ (piece ++ coding.mark)

def encode (pieces : List (List β)) : List β := pieces.flatMap (frame coding) ++ frame coding []

def afterMark (text : List β) : Option (List β) :=
  if coding.mark <+: text then some (text.drop coding.mark.length) else none

/-- Chunks are read up to the one of size 0, in so many turns. -/
def decodeFrom : Nat → List β → Option (List (List β) × List β)
  | 0, _ => none
  | turns + 1, text => do
      let (size, rest) ← coding.readHeader text
      if size = 0 then
        let rest ← afterMark coding rest
        some ([], rest)
      else if rest.length < size then none
      else
        let behind ← afterMark coding (rest.drop size)
        let (pieces, left) ← decodeFrom turns behind
        some (rest.take size :: pieces, left)

def decode (text : List β) : Option (List (List β) × List β) := decodeFrom coding text.length text

theorem afterMark_append (rest : List β) : afterMark coding (coding.mark ++ rest) = some rest := by
  rw [afterMark, if_pos (List.prefix_append _ _), List.drop_left]

theorem decodeFrom_encode {pieces : List (List β)} (rest : List β)
    (filled : ∀ piece ∈ pieces, piece ≠ []) {turns : Nat} (enough : pieces.length < turns) :
    decodeFrom coding turns (encode coding pieces ++ rest) = some (pieces, rest) := by
  induction pieces generalizing turns with
  | nil =>
    cases turns with
    | zero => cases enough
    | succ turns =>
      simp [decodeFrom, encode, frame, coding.reads, afterMark_append]
  | cons piece pieces ih =>
    cases turns with
    | zero => cases enough
    | succ turns =>
      have some_ : piece.length ≠ 0 := by
        intro none'
        exact filled piece List.mem_cons_self (List.length_eq_zero_iff.mp none')
      have tail := ih (List.forall_mem_cons.mp filled).2 (Nat.lt_of_succ_lt_succ enough)
      have split : encode coding (piece :: pieces) ++ rest =
          coding.header piece.length ++ (piece ++ (coding.mark ++
            (encode coding pieces ++ rest))) := by
        simp [encode, frame]
      rw [split, decodeFrom]
      simp [coding.reads, some_, afterMark_append, tail]

/-- What is framed is found again, with what is behind it. -/
theorem decode_encode {pieces : List (List β)} (rest : List β)
    (filled : ∀ piece ∈ pieces, piece ≠ []) :
    decode coding (encode coding pieces ++ rest) = some (pieces, rest) := by
  apply decodeFrom_encode coding rest filled
  have frames : pieces.length ≤ (pieces.flatMap (frame coding)).length := by
    clear filled
    induction pieces with
    | nil => exact Nat.le_refl 0
    | cons piece pieces ih =>
      have := coding.filled piece.length
      simp only [List.flatMap_cons, List.length_append, frame, List.length_cons]
      omega
  have last := coding.filled 0
  simp only [encode, List.length_append, frame, List.length_nil]
  omega

end Coast.Framing
