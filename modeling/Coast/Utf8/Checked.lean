import Coast.Base.Bytes
import Coast.Library.Utf8Text

/-!
# `utf8::next`, `utf8::advance` and `utf8::distance`

An iterator is what is left of the text; behind the end there is a NUL.
-/

namespace Coast

open List

inductive UtfError where
  | notEnoughRoom
  | invalidLead
  | incompleteSequence
  | overlongSequence
  | invalidCodePoint
  deriving DecidableEq

inductive Utf8Exception where
  | notEnoughRoom
  | invalidUtf8
  | invalidCodePoint
  deriving DecidableEq

namespace Utf8

def isTrail (oc : Byte) : Bool := oc.toNat >>> 6 = 2

def isSurrogate (cp : Nat) : Bool := 0xd800 ≤ cp && cp ≤ 0xdfff

def isCodePointValid (cp : Nat) : Bool := cp ≤ 0x10ffff && !isSurrogate cp

def sequenceLength (lead : Byte) : Nat :=
  if lead.toNat < 0x80 then 1
  else if lead.toNat >>> 5 = 0x6 then 2
  else if lead.toNat >>> 4 = 0xe then 3
  else if lead.toNat >>> 3 = 0x1e then 4
  else 0

def isOverlongSequence (cp length : Nat) : Bool :=
  if cp < 0x80 then length ≠ 1
  else if cp < 0x800 then length ≠ 2
  else if cp < 0x10000 then length ≠ 3
  else false

def increaseSafely (it : Bytes) : Except UtfError (Nat × Bytes) :=
  match it.tail with
  | [] => .error .notEnoughRoom
  | oc :: rest =>
    if !isTrail oc then .error .incompleteSequence
    else .ok (oc.toNat, oc :: rest)

def getSequence1 : Bytes → Except UtfError (Nat × Bytes)
  | [] => .error .notEnoughRoom
  | oc :: it => .ok (oc.toNat, oc :: it)

def getSequence2 : Bytes → Except UtfError (Nat × Bytes)
  | [] => .error .notEnoughRoom
  | oc :: it => do
      let codePoint := oc.toNat
      let (oc, it) ← increaseSafely (oc :: it)
      .ok ((codePoint <<< 6) % 0x800 + oc % 0x40, it)

/-- A character of three bytes, with the checks that `utf8::internal` makes. -/
def getSequence3 : Bytes → Except UtfError (Nat × Bytes)
  | [] => .error .notEnoughRoom
  | oc :: it => do
      let codePoint := oc.toNat
      let (oc, it) ← increaseSafely (oc :: it)
      let codePoint := (codePoint <<< 12) % 0x10000 + (oc <<< 6) % 0x1000
      let (oc, it) ← increaseSafely it
      .ok (codePoint + oc % 0x40, it)

/-- A character of four bytes. -/
def getSequence4 : Bytes → Except UtfError (Nat × Bytes)
  | [] => .error .notEnoughRoom
  | oc :: it => do
      let codePoint := oc.toNat
      let (oc, it) ← increaseSafely (oc :: it)
      let codePoint := (codePoint <<< 18) % 0x200000 + (oc <<< 12) % 0x40000
      let (oc, it) ← increaseSafely it
      let codePoint := codePoint + (oc <<< 6) % 0x1000
      let (oc, it) ← increaseSafely it
      .ok (codePoint + oc % 0x40, it)

def getSequence (length : Nat) (it : Bytes) : Except UtfError (Nat × Bytes) :=
  match length with
  | 1 => getSequence1 it
  | 2 => getSequence2 it
  | 3 => getSequence3 it
  | 4 => getSequence4 it
  | _ => .error .invalidLead

def validateNext (it : Bytes) : Except UtfError (Nat × Bytes) := do
  let length := sequenceLength (it.headD 0)
  let (cp, it) ← getSequence length it
  if isCodePointValid cp then
    if !isOverlongSequence cp length then .ok (cp, it.tail)
    else .error .overlongSequence
  else .error .invalidCodePoint

def next (it : Bytes) : Except Utf8Exception (Nat × Bytes) :=
  match validateNext it with
  | .ok result => .ok result
  | .error .notEnoughRoom => .error .notEnoughRoom
  | .error .invalidLead | .error .incompleteSequence
  | .error .overlongSequence => .error .invalidUtf8
  | .error .invalidCodePoint => .error .invalidCodePoint

def advance : Nat → Bytes → Except Utf8Exception Bytes
  | 0, it => .ok it
  | n + 1, it => do
      let (_, it) ← next it
      advance n it

/-- The loop of `utf8::distance`, with a bound on its turns: every turn takes
an octet. -/
def distanceLoop : Nat → Bytes → Nat → Except Utf8Exception Nat
  | 0, _, dist => .ok dist
  | turns + 1, first, dist =>
    if first = [] then .ok dist
    else do
      let (_, first) ← next first
      distanceLoop turns first (dist + 1)

def distance (text : Bytes) : Except Utf8Exception Nat := distanceLoop text.length text 0

variable {it rest : Bytes}

theorem increaseSafely_left {oc : Nat} (result : increaseSafely it = .ok (oc, rest)) :
    rest = it.tail ∧ rest ≠ [] := by
  rw [increaseSafely] at result
  split at result
  · cases result
  · rename_i here
    split at result
    · cases result
    · cases result
      exact ⟨here.symm, cons_ne_nil _ _⟩

def Inside (it rest : Bytes) : Prop := ∃ k, k < it.length ∧ rest = it.drop k

theorem Inside.here (some_ : it ≠ []) : Inside it it := ⟨0, length_pos_iff.mpr some_, rfl⟩

theorem Inside.increase {after : Bytes} {oc : Nat} (inside : Inside it rest)
    (result : increaseSafely rest = .ok (oc, after)) : Inside it after := by
  rcases inside with ⟨k, _, rfl⟩
  rcases increaseSafely_left result with ⟨rfl, some_⟩
  rw [tail_drop] at some_ ⊢
  refine ⟨k + 1, ?_, rfl⟩
  by_contra outside
  exact some_ (drop_eq_nil_of_le (Nat.le_of_not_lt outside))

theorem except_bind_ok {ε α β : Type} {m : Except ε α} {f : α → Except ε β}
    {b : β} (result : (m >>= f) = .ok b) : ∃ a, m = .ok a ∧ f a = .ok b := by
  cases m with
  | error e => cases result
  | ok a => exact ⟨a, rfl, result⟩

variable {cp : Nat}

theorem getSequence_inside {length : Nat}
    (result : getSequence length it = .ok (cp, rest)) : Inside it rest := by
  cases it with
  | nil =>
    match length, result with
    | 0, result | 1, result | 2, result | 3, result | 4, result
    | _ + 5, result => cases result
  | cons oc it =>
    have here : Inside (oc :: it) (oc :: it) := .here (cons_ne_nil _ _)
    match length, result with
    | 0, result => cases result
    | 1, result =>
      cases result
      exact here
    | 2, result =>
      rcases except_bind_ok result with ⟨⟨_, one⟩, first, result⟩
      cases result
      exact here.increase first
    | 3, result =>
      rcases except_bind_ok result with ⟨⟨_, one⟩, first, result⟩
      rcases except_bind_ok result with ⟨⟨_, two⟩, second, result⟩
      cases result
      exact (here.increase first).increase second
    | 4, result =>
      rcases except_bind_ok result with ⟨⟨_, one⟩, first, result⟩
      rcases except_bind_ok result with ⟨⟨_, two⟩, second, result⟩
      rcases except_bind_ok result with ⟨⟨_, three⟩, third, result⟩
      cases result
      exact ((here.increase first).increase second).increase third
    | _ + 5, result => cases result

theorem next_left (result : next it = .ok (cp, rest)) :
    ∃ k, 0 < k ∧ k ≤ it.length ∧ rest = it.drop k := by
  have valid : validateNext it = .ok (cp, rest) := by
    rw [next] at result
    split at result
    · rename_i here
      cases result
      exact here
    all_goals cases result
  rcases except_bind_ok valid with ⟨⟨code, last⟩, sequence, checks⟩
  rcases getSequence_inside sequence with ⟨k, inside, rfl⟩
  dsimp only at checks
  split at checks
  · split at checks
    · cases checks
      exact ⟨k + 1, Nat.succ_pos k, inside, tail_drop⟩
    · cases checks
  · cases checks

theorem advance_left {n : Nat} (result : advance n it = .ok rest) :
    ∃ k, n ≤ k ∧ k ≤ it.length ∧ rest = it.drop k := by
  induction n generalizing it with
  | zero =>
    cases result
    exact ⟨0, le_refl 0, Nat.zero_le _, rfl⟩
  | succ n ih =>
    rcases except_bind_ok result with ⟨⟨cp, after⟩, first, others⟩
    rcases next_left first with ⟨j, taken, inside, rfl⟩
    rcases ih others with ⟨k, enough, within, rfl⟩
    rw [length_drop] at within
    exact ⟨j + k, by omega, by omega, drop_drop⟩

/-! ## Texts of characters -/

open Utf8Text Nat

variable {b : Byte}

theorem isTrail_of_trail (trail : Trail b) : isTrail b = true := by
  rcases trail with ⟨low, high⟩
  rw [isTrail, shiftRight_eq_div_pow]
  exact decide_eq_true (by omega)

theorem increaseSafely_trail (a : Byte) (trail : Trail b) (rest : Bytes) :
    increaseSafely (a :: b :: rest) = .ok (b.toNat, b :: rest) := by
  simp [increaseSafely, isTrail_of_trail trail]

theorem isCodePointValid_of (small : cp ≤ 0x10ffff)
    (around : cp < 0xd800 ∨ 0xdfff < cp) : isCodePointValid cp = true := by
  simp only [isCodePointValid, isSurrogate, Bool.and_eq_true, Bool.not_eq_true',
    Bool.and_eq_false_iff, decide_eq_true_eq, decide_eq_false_iff_not]
  omega

theorem isOverlongSequence_two (low : 0x80 ≤ cp)
    (high : cp < 0x800) : isOverlongSequence cp 2 = false := by
  rw [isOverlongSequence, if_neg (by omega), if_pos high]
  rfl

theorem isOverlongSequence_three (low : 0x800 ≤ cp)
    (high : cp < 0x10000) : isOverlongSequence cp 3 = false := by
  rw [isOverlongSequence, if_neg (by omega), if_neg (by omega), if_pos high]
  rfl

theorem isOverlongSequence_four (low : 0x10000 ≤ cp) : isOverlongSequence cp 4 = false := by
  rw [isOverlongSequence, if_neg (by omega), if_neg (by omega), if_neg (by omega)]

theorem next_of_decoded {lead last : Byte} {length : Nat} (isLength : sequenceLength lead = length)
    (decoded : getSequence length (lead :: it) = .ok (cp, last :: rest))
    (valid : isCodePointValid cp = true) (short : isOverlongSequence cp length = false) :
    next (lead :: it) = .ok (cp, rest) := by
  have checked : validateNext (lead :: it) = .ok (cp, rest) := by
    simp [validateNext, isLength, decoded, valid, short, bind, Except.bind]
  rw [next, checked]

theorem next_one {a : Byte} (low : a.toNat < 0x80) (rest : Bytes) :
    next (a :: rest) = .ok (a.toNat, rest) := by
  have length : sequenceLength a = 1 := by rw [sequenceLength, if_pos low]
  have valid : isCodePointValid a.toNat = true := isCodePointValid_of (by omega) (.inl (by omega))
  refine next_of_decoded length rfl valid ?_
  rw [isOverlongSequence, if_pos low]
  rfl

theorem next_two {a : Byte} (low : 0xc2 ≤ a.toNat) (high : a.toNat < 0xe0)
    (second : Trail b) (rest : Bytes) :
    ∃ cp, next (a :: b :: rest) = .ok (cp, rest) := by
  have length : sequenceLength a = 2 := by
    simp only [sequenceLength, shiftRight_eq_div_pow]
    rw [if_neg (by omega), if_pos (by omega)]
  have decoded : getSequence 2 (a :: b :: rest) =
      .ok ((a.toNat <<< 6) % 0x800 + b.toNat % 0x40, b :: rest) := by
    simp [getSequence, getSequence2, increaseSafely_trail a second, bind, Except.bind]
  rw [shiftLeft_eq] at decoded
  rcases second with ⟨_, _⟩
  exact ⟨_, next_of_decoded length decoded (isCodePointValid_of (by omega) (.inl (by omega)))
    (isOverlongSequence_two (by omega) (by omega))⟩

theorem next_three {a c : Byte} (low : 0xe0 ≤ a.toNat) (high : a.toNat < 0xf0)
    (least : a.toNat = 0xe0 → 0xa0 ≤ b.toNat) (surrogates : a.toNat = 0xed → b.toNat < 0xa0)
    (second : Trail b) (third : Trail c) (rest : Bytes) :
    ∃ cp, next (a :: b :: c :: rest) = .ok (cp, rest) := by
  have length : sequenceLength a = 3 := by
    simp only [sequenceLength, shiftRight_eq_div_pow]
    rw [if_neg (by omega), if_neg (by omega), if_pos (by omega)]
  have decoded : getSequence 3 (a :: b :: c :: rest) =
      .ok ((a.toNat <<< 12) % 0x10000 + (b.toNat <<< 6) % 0x1000 + c.toNat % 0x40, c :: rest) := by
    simp [getSequence, getSequence3, increaseSafely_trail a second,
      increaseSafely_trail b third, bind, Except.bind]
  simp only [shiftLeft_eq] at decoded
  rcases second with ⟨_, _⟩
  rcases third with ⟨_, _⟩
  exact ⟨_, next_of_decoded length decoded (isCodePointValid_of (by omega) (by omega))
    (isOverlongSequence_three (by omega) (by omega))⟩

theorem next_four {a c d : Byte} (low : 0xf0 ≤ a.toNat) (high : a.toNat < 0xf5)
    (least : a.toNat = 0xf0 → 0x90 ≤ b.toNat) (most : a.toNat = 0xf4 → b.toNat < 0x90)
    (second : Trail b) (third : Trail c) (fourth : Trail d) (rest : Bytes) :
    ∃ cp, next (a :: b :: c :: d :: rest) = .ok (cp, rest) := by
  have length : sequenceLength a = 4 := by
    simp only [sequenceLength, shiftRight_eq_div_pow]
    rw [if_neg (by omega), if_neg (by omega), if_neg (by omega), if_pos (by omega)]
  have decoded : getSequence 4 (a :: b :: c :: d :: rest) =
      .ok ((a.toNat <<< 18) % 0x200000 + (b.toNat <<< 12) % 0x40000 +
        (c.toNat <<< 6) % 0x1000 + d.toNat % 0x40, d :: rest) := by
    simp [getSequence, getSequence4, increaseSafely_trail a second, increaseSafely_trail b third,
      increaseSafely_trail c fourth, bind, Except.bind]
  simp only [shiftLeft_eq] at decoded
  rcases second with ⟨_, _⟩
  rcases third with ⟨_, _⟩
  rcases fourth with ⟨_, _⟩
  exact ⟨_, next_of_decoded length decoded (isCodePointValid_of (by omega) (by omega))
    (isOverlongSequence_four (by omega))⟩

theorem next_sequence {sequence : Bytes} (isSequence : Sequence sequence)
    (rest : Bytes) : ∃ cp, next (sequence ++ rest) = .ok (cp, rest) := by
  cases isSequence with
  | one low => exact ⟨_, next_one low rest⟩
  | two low high second => exact next_two low high second rest
  | three low high least surrogates second third =>
    exact next_three low high least surrogates second third rest
  | four low high least most second third fourth =>
    exact next_four low high least most second third fourth rest

theorem advance_text {text : Bytes} {n : Nat} (isText : Text text n)
    (rest : Bytes) : advance n (text ++ rest) = .ok rest := by
  induction isText with
  | nil => rfl
  | @cons sequence text n isSequence _ ih =>
    rcases next_sequence isSequence (text ++ rest) with ⟨cp, first⟩
    rw [append_assoc, advance, first]
    exact ih

theorem distanceLoop_text {text : Bytes} {n : Nat} (isText : Text text n)
    (turns dist : Nat) (enough : n ≤ turns) :
    distanceLoop turns text dist = .ok (dist + n) := by
  induction isText generalizing turns dist with
  | nil =>
    cases turns with
    | zero => rfl
    | succ turns => rw [distanceLoop, if_pos rfl, Nat.add_zero]
  | @cons sequence text n isSequence _ ih =>
    cases turns with
    | zero => omega
    | succ turns =>
      rcases next_sequence isSequence text with ⟨cp, first⟩
      have some_ : sequence ++ text ≠ [] := by
        have length := isSequence.length_pos
        exact append_ne_nil_of_left_ne_nil (length_pos_iff.mp length) _
      rw [distanceLoop, if_neg some_, first]
      have others := ih turns (dist + 1) (by omega)
      rw [Nat.add_assoc, Nat.add_comm 1 n] at others
      exact others

/-- The characters of a text are counted. -/
theorem distance_text {text : Bytes} {n : Nat} (isText : Text text n) : distance text = .ok n := by
  rw [distance, distanceLoop_text isText _ _ isText.le_length, Nat.zero_add]

end Utf8

end Coast
