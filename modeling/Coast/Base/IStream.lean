import Coast.Base.Bytes

/-!
# Input streams over a string

`std::istream` over a `StringStreamBuf`, as far as the parsing code uses it.
Characters that were read stay reachable for `putback`; putting back any
other character than the last one read is a failure of the buffer.
-/

namespace Coast

/-- A stream with what has been read, for `putback`. -/
structure IStream where
  /-- The characters already read, the last one first. -/
  before : Bytes
  rest : Bytes
  eof : Bool
  /-- `failbit` or `badbit`. -/
  fail : Bool
  deriving DecidableEq, Repr

namespace IStream

def at_ (before rest : Bytes) : IStream := ⟨before, rest, false, false⟩

def ofText (text : Bytes) : IStream := at_ [] text

def good (s : IStream) : Bool := !s.eof && !s.fail

def clear (s : IStream) : IStream := { s with eof := false, fail := false }

def get (s : IStream) : Option Byte × IStream :=
  if s.good then
    match s.rest with
    | c :: rest => (some c, { s with before := c :: s.before, rest := rest })
    | [] => (none, { s with eof := true, fail := true })
  else (none, { s with fail := true })

def peek (s : IStream) : Option Byte × IStream :=
  if s.good then
    match s.rest with
    | c :: _ => (some c, s)
    | [] => (none, { s with eof := true })
  else (none, { s with fail := true })

/-- As many characters as there are, up to the number asked for. -/
def readBytes (s : IStream) (n : Nat) : Bytes × IStream :=
  if s.good then
    (s.rest.take n,
      { s with
        before := (s.rest.take n).reverse ++ s.before
        rest := s.rest.drop n
        eof := s.rest.length < n
        fail := s.rest.length < n })
  else ([], { s with fail := true })

/-- The last character is put back if it is this one. -/
def putback (s : IStream) (c : Byte) : IStream :=
  let s := { s with eof := false }
  if s.fail then s
  else
    match s.before with
    | last :: before =>
      if last = c then { s with before := before, rest := c :: s.rest }
      else { s with fail := true }
    | [] => { s with fail := true }

/-- The scanning loops of the source: read while `p` holds, collecting what
was read.  The character that ended the loop, if any, is consumed too. -/
def collectFrom (p : Byte → Bool) (before : Bytes) : Bytes → Bytes × Option Byte × IStream
  | [] => ([], none, ⟨before, [], true, true⟩)
  | c :: rest =>
    if p c then
      let (word, stop, s) := collectFrom p (c :: before) rest
      (c :: word, stop, s)
    else ([], some c, at_ (c :: before) rest)

def collect (p : Byte → Bool) (s : IStream) : Bytes × Option Byte × IStream :=
  if s.good then collectFrom p s.before s.rest
  else ([], none, { s with fail := true })

@[simp]
theorem good_at (before rest : Bytes) : (at_ before rest).good = true := rfl

@[simp]
theorem eof_at (before rest : Bytes) : (at_ before rest).eof = false := rfl

@[simp]
theorem get_at_cons (before rest : Bytes) (c : Byte) :
    (at_ before (c :: rest)).get = (some c, at_ (c :: before) rest) := rfl

theorem readBytes_at_append {n : Nat} (before text rest : Bytes) (length : text.length = n) :
    (at_ before (text ++ rest)).readBytes n = (text, at_ (text.reverse ++ before) rest) := by
  subst length
  simp [readBytes, at_, good]

@[simp]
theorem putback_at (before rest : Bytes) (c : Byte) :
    (at_ (c :: before) rest).putback c = at_ before (c :: rest) := by
  simp [putback, at_]

theorem collectFrom_append (p : Byte → Bool) (stop : Byte) (rest : Bytes) (stops : p stop = false) :
    ∀ (word before : Bytes), (∀ c ∈ word, p c = true) →
      collectFrom p before (word ++ stop :: rest) =
        (word, some stop, at_ (stop :: (word.reverse ++ before)) rest)
  | [], before, _ => by
      simp [collectFrom, stops]
  | c :: word, before, all => by
      have inside : p c = true := all c List.mem_cons_self
      have tail := collectFrom_append p stop rest stops word (c :: before)
        (List.forall_mem_cons.mp all).2
      rw [List.cons_append, collectFrom, if_pos inside, tail]
      simp

theorem collect_at (p : Byte → Bool) {stop : Byte}
    (stops : p stop = false) (word before rest : Bytes) (all : ∀ c ∈ word, p c = true) :
    collect p (at_ before (word ++ stop :: rest)) =
      (word, some stop, at_ (stop :: (word.reverse ++ before)) rest) :=
  collectFrom_append p stop rest stops word before all

theorem collectFrom_all (p : Byte → Bool) :
    ∀ (word before : Bytes), (∀ c ∈ word, p c = true) →
      collectFrom p before word = (word, none, ⟨word.reverse ++ before, [], true, true⟩)
  | [], before, _ => rfl
  | c :: word, before, all => by
      have inside : p c = true := all c List.mem_cons_self
      have tail := collectFrom_all p word (c :: before) (List.forall_mem_cons.mp all).2
      rw [collectFrom, if_pos inside, tail]
      simp

theorem collect_at_all (p : Byte → Bool) (word before : Bytes) (all : ∀ c ∈ word, p c = true) :
    collect p (at_ before word) = (word, none, ⟨word.reverse ++ before, [], true, true⟩) :=
  collectFrom_all p word before all

end IStream

end Coast
