import Coast.Base.Bytes

/-!
# Reading lines of a stream

`std::istream` as far as code that reads lines uses it: looking at the next
character, reading up to a delimiter and reading blocks.
-/

namespace Coast

open List

/-- A stream of characters without `putback`. -/
structure TextStream where
  rest : Bytes
  eof : Bool
  fail : Bool
  deriving DecidableEq, Repr

namespace TextStream

def ofText (text : Bytes) : TextStream := ⟨text, false, false⟩

def good (is : TextStream) : Bool := !is.eof && !is.fail

def peek (is : TextStream) : Option Byte × TextStream :=
  if is.good then
    match is.rest with
    | [] => (none, { is with eof := true })
    | c :: _ => (some c, is)
  else (none, { is with fail := true })

def get (is : TextStream) : Option Byte × TextStream :=
  if is.good then
    match is.rest with
    | [] => (none, { is with eof := true, fail := true })
    | c :: rest => (some c, { is with rest := rest })
  else (none, { is with fail := true })

def getUntil (delim : Byte) (length : Nat) (is : TextStream) : Bytes × TextStream :=
  if is.good then
    let line := (is.rest.takeWhile (· ≠ delim)).take length
    let rest := is.rest.drop line.length
    (line, ⟨rest, rest.isEmpty, line.isEmpty⟩)
  else ([], { is with fail := true })

def read (length : Nat) (is : TextStream) : Bytes × TextStream :=
  if is.good then
    let short := decide (is.rest.length < length)
    (is.rest.take length, ⟨is.rest.drop length, short, short⟩)
  else ([], { is with fail := true })

def appendUntil (delim : Byte) (length : Nat) (is : TextStream) : Bytes × TextStream :=
  if length = 0 then ([], is)
  else
    let (next, is) := is.peek
    if next = some delim then ([], is) else is.getUntil delim length

@[simp]
theorem good_ofText (text : Bytes) : (ofText text).good = true := rfl

@[simp]
theorem peek_ofText_cons (c : Byte) (text : Bytes) :
    (ofText (c :: text)).peek = (some c, ofText (c :: text)) := rfl

variable {delim : Byte} {line : Bytes}

theorem takeWhile_ne (inside : delim ∉ line) (rest : Bytes) :
    (line ++ delim :: rest).takeWhile (· ≠ delim) = line := by
  have all : ∀ c ∈ line, decide (c ≠ delim) = true := by
    intro c member
    rw [decide_eq_true_eq]
    intro same
    exact inside (same ▸ member)
  rw [takeWhile_append_of_pos all, takeWhile_cons_of_neg (by simp), append_nil]

theorem takeWhile_ne_self (inside : delim ∉ line) : line.takeWhile (· ≠ delim) = line := by
  rw [takeWhile_eq_self_iff]
  intro c member
  rw [decide_eq_true_eq]
  intro same
  exact inside (same ▸ member)

theorem appendUntil_ofText {length : Nat} {text : Bytes}
    (positive : 0 < length) (some' : text ≠ []) (first : text.head? ≠ some delim) :
    (ofText text).appendUntil delim length = ((text.takeWhile (· ≠ delim)).take length,
        ⟨text.drop ((text.takeWhile (· ≠ delim)).take length).length,
          (text.drop ((text.takeWhile (· ≠ delim)).take length).length).isEmpty,
          false⟩) := by
  cases text with
  | nil => exact absurd rfl some'
  | cons c text =>
    have differs : c ≠ delim := fun same => first (congrArg some same)
    obtain ⟨n, isPositive⟩ : ∃ n, length = n + 1 := ⟨length - 1, by omega⟩
    have starts : ((c :: text).takeWhile (· ≠ delim)).take length =
        c :: (text.takeWhile (· ≠ delim)).take n := by
      have keeps : decide (c ≠ delim) = true := decide_eq_true differs
      rw [takeWhile_cons, isPositive]
      simp only [keeps, if_true, take_succ_cons]
    unfold appendUntil
    rw [if_neg (by omega), peek_ofText_cons]
    dsimp only
    rw [if_neg fun same => differs (Option.some.inj same), getUntil, if_pos (good_ofText _)]
    show (_, (⟨_, _, _⟩ : TextStream)) = _
    congr 2
    show (((c :: text).takeWhile (· ≠ delim)).take length).isEmpty = false
    rw [starts]
    rfl

theorem head?_ne (some' : line ≠ []) (inside : delim ∉ line) (rest : Bytes) :
    (line ++ rest).head? ≠ some delim := by
  cases line with
  | nil => exact absurd rfl some'
  | cons c line =>
    intro same
    exact inside (mem_cons.mpr (.inl (Option.some.inj same).symm))

theorem appendUntil_line {length : Nat} {rest : Bytes}
    (positive : 0 < length) (inside : delim ∉ line) (fits : line.length ≤ length) :
    (ofText (line ++ delim :: rest)).appendUntil delim length = (line, ofText (delim :: rest)) := by
  cases line with
  | nil =>
    unfold appendUntil
    rw [if_neg (by omega), nil_append, peek_ofText_cons]
    exact if_pos rfl
  | cons c line =>
    have first : (c :: line ++ delim :: rest).head? ≠ some delim :=
      head?_ne (cons_ne_nil c line) inside _
    have some' : c :: line ++ delim :: rest ≠ [] := cons_ne_nil _ _
    rw [appendUntil_ofText positive some' first, takeWhile_ne inside, take_of_length_le fits,
      drop_left]
    rfl

theorem appendUntil_cut {rest : Bytes}
    (positive : 0 < line.length) (inside : delim ∉ line) (more : rest ≠ []) :
    (ofText (line ++ rest)).appendUntil delim line.length = (line, ofText rest) := by
  have some' : line ≠ [] := length_pos_iff.mp positive
  have all : ∀ c ∈ line, decide (c ≠ delim) = true :=
    takeWhile_eq_self_iff.mp (takeWhile_ne_self inside)
  have cut : ((line ++ rest).takeWhile (· ≠ delim)).take line.length = line := by
    rw [takeWhile_append_of_pos all]
    exact take_left
  have begins : line ++ rest ≠ [] := fun nothing =>
    some' (append_eq_nil_iff.mp nothing).1
  rw [appendUntil_ofText positive begins (head?_ne some' inside rest), cut,
    drop_left, isEmpty_eq_false_iff.mpr more]
  rfl

/-- The last line ends with the text. -/
theorem appendUntil_last {length : Nat}
    (some' : line ≠ []) (inside : delim ∉ line) (fits : line.length ≤ length) :
    (ofText line).appendUntil delim length = (line, ⟨[], true, false⟩) := by
  have long := length_pos_iff.mpr some'
  have first := head?_ne some' inside []
  rw [append_nil] at first
  rw [appendUntil_ofText (by omega) some' first, takeWhile_ne_self inside,
    take_of_length_le fits, drop_length]
  rfl

end TextStream

end Coast
