import Coast.Base.AnyAccess
import Coast.Base.StringImpl
import Coast.Library.TurnLoop

/-!
# What the template parser reads with

`TemplateParser` reads its stream a character at a time.  The end of the
stream is `EOF` when it is met, and a NUL from then on.
-/

namespace Coast

open List

def toChar (c : Option Byte) : Byte := c.getD 0xFF

/-- The state of the parser, and what it has reported and imported. -/
structure TemplateParser where
  reader : IStream
  fileName : Bytes
  line : Int
  cache : Anything
  /-- `froaConfig`, in its heap. -/
  config : Heap × Handle
  /-- What `Error` has written to the log. -/
  errors : List Bytes
  /-- The texts that were read with `Anything::Import`, in this order. -/
  imports : List Bytes

namespace TemplateParser

variable {p q r : TemplateParser} {c : Byte} {word rest : Bytes}

def get (p : TemplateParser) : Option Byte × TemplateParser :=
  if p.reader.good then
    (p.reader.get.1,
      { p with
        reader := p.reader.get.2
        line := if p.reader.get.1 = some (ch '\n') then p.line + 1 else p.line })
  else (some 0, p)

def peek (p : TemplateParser) : Option Byte × TemplateParser :=
  if p.reader.good then
    (p.reader.peek.1, { p with reader := p.reader.peek.2 })
  else (some 0, p)

def putBack (p : TemplateParser) (c : Byte) : TemplateParser :=
  { p with
    reader := p.reader.putback c
    line := if c = ch '\n' then p.line - 1 else p.line }

def isGood (p : TemplateParser) : Bool := !p.reader.good

def error (p : TemplateParser) (msg : Bytes) : TemplateParser :=
  { p with
    errors := p.errors ++ [lit " " ++ p.fileName ++ lit ".html:" ++
      decimalText p.line ++ lit " " ++ cstr msg] }

def storeInto (cache : Anything) (literal : Bytes) : Anything :=
  if literal = [] then cache else cache.append (.charPtr literal)

def storeText (p : TemplateParser) (literal : Bytes) : TemplateParser :=
  { p with cache := storeInto p.cache literal }

def store (p : TemplateParser) (rendererspec : Anything) : TemplateParser :=
  match rendererspec with
  | .null => p
  | spec => { p with cache := p.cache.append spec }

def read (p : TemplateParser) (word rest : Bytes) : TemplateParser :=
  { p with
    reader := .at_ (word.reverse ++ p.reader.before) rest
    line := p.line + word.count (ch '\n') }

def atEnd (p : TemplateParser) (word : Bytes) (fail : Bool) : TemplateParser :=
  { p.read word [] with
    reader := ⟨word.reverse ++ p.reader.before, [], true, fail⟩ }

@[simp]
theorem isGood_read (p : TemplateParser) (word rest : Bytes) :
    (p.read word rest).isGood = false := rfl

@[simp]
theorem isGood_atEnd (p : TemplateParser) (word : Bytes) (fail : Bool) :
    (p.atEnd word fail).isGood = true := rfl

@[simp]
theorem rest_read (p : TemplateParser) (word rest : Bytes) :
    (p.read word rest).reader.rest = rest := rfl

@[simp]
theorem rest_atEnd (p : TemplateParser) (word : Bytes) (fail : Bool) :
    (p.atEnd word fail).reader.rest = [] := rfl

@[simp]
theorem cache_read (p : TemplateParser) (word rest : Bytes) :
    (p.read word rest).cache = p.cache := rfl

@[simp]
theorem cache_atEnd (p : TemplateParser) (word : Bytes) (fail : Bool) :
    (p.atEnd word fail).cache = p.cache := rfl

@[simp]
theorem config_read (p : TemplateParser) (word rest : Bytes) :
    (p.read word rest).config = p.config := rfl

@[simp]
theorem read_read (p : TemplateParser) (word other rest after : Bytes) :
    (p.read word rest).read other after = p.read (word ++ other) after := by
  simp [read, IStream.at_, count_append, Int.add_assoc]

theorem eq_read (good : p.isGood = false) : p = p.read [] p.reader.rest := by
  obtain ⟨⟨before, rest, eof, fail⟩, _, line, _, _, _, _⟩ := p
  cases eof <;> cases fail <;> simp_all [isGood, IStream.good, read, IStream.at_]

theorem get_of_isGood (over_ : p.isGood = true) : p.get = (some 0, p) := by
  rw [get, if_neg]
  simpa [isGood] using over_

theorem peek_of_isGood (over_ : p.isGood = true) : p.peek = (some 0, p) := by
  rw [peek, if_neg]
  simpa [isGood] using over_

@[simp]
theorem get_read_cons (p : TemplateParser) (word rest : Bytes) (c : Byte) :
    (p.read word (c :: rest)).get = (some c, p.read (word ++ [c]) rest) := by
  have line : (if c = ch '\n' then p.line + word.count (ch '\n') + 1
      else p.line + word.count (ch '\n') : Int) = p.line + (word ++ [c]).count (ch '\n') := by
    rw [count_append, count_singleton]
    split <;> simp_all [Int.add_assoc]
  have good : (p.read word (c :: rest)).reader.good = true := rfl
  rw [get, if_pos good]
  simp only [read, IStream.get_at_cons, Option.some.injEq, line, reverse_append, reverse_singleton,
    cons_append, nil_append]

@[simp]
theorem get_read_nil (p : TemplateParser) (word : Bytes) :
    (p.read word []).get = (none, p.atEnd word true) := rfl

@[simp]
theorem peek_read_cons (p : TemplateParser) (word rest : Bytes) (c : Byte) :
    (p.read word (c :: rest)).peek = (some c, p.read word (c :: rest)) :=
  rfl

@[simp]
theorem peek_read_nil (p : TemplateParser) (word : Bytes) :
    (p.read word []).peek = (none, p.atEnd word false) := rfl

@[simp]
theorem putBack_read (p : TemplateParser) (word rest : Bytes) (c : Byte) :
    (p.read (word ++ [c]) rest).putBack c = p.read word (c :: rest) := by
  have line : (if c = ch '\n' then
      p.line + (word ++ [c]).count (ch '\n') - 1
      else p.line + (word ++ [c]).count (ch '\n') : Int) = p.line + word.count (ch '\n') := by
    rw [count_append, count_singleton]
    by_cases newline : c = ch '\n'
    · simp only [newline, BEq.rfl, if_true, Int.natCast_add]
      omega
    · simp [newline]
  rw [putBack, read, read]
  simp only [line, reverse_append, reverse_singleton, cons_append, nil_append, IStream.putback_at]

@[simp]
theorem putBack_atEnd (p : TemplateParser) (word : Bytes) (c : Byte) :
    (p.atEnd (word ++ [c]) false).putBack c = p.read word [c] := by
  rw [← putBack_read p word [] c]
  rfl

/-! ## The reads that are left -/

def live (c : Option Byte) : Nat := if c.any (· ≠ 0) then 1 else 0

def left (p : TemplateParser) : Nat := p.reader.rest.length + if p.isGood then 0 else 1

/-- What `q` has in front of it is the end of what `p` had. -/
structure Reads (p q : TemplateParser) : Prop where
  suffix_ : q.reader.rest <:+ p.reader.rest
  left_le : q.left ≤ p.left

theorem Reads.refl (p : TemplateParser) : Reads p p := ⟨suffix_refl _, Nat.le_refl _⟩

theorem Reads.trans (first : Reads p q) (second : Reads q r) : Reads p r :=
  ⟨second.suffix_.trans first.suffix_, second.left_le.trans first.left_le⟩

theorem Reads.of_reader (same : q.reader = p.reader) : Reads p q := by
  have sameLeft : q.left = p.left := by
    rw [left, left, isGood, isGood, same]
  exact ⟨same ▸ suffix_refl _, sameLeft.le⟩

theorem Reads.length_le (reads : Reads p q) : q.reader.rest.length ≤ p.reader.rest.length :=
  reads.suffix_.length_le

@[simp]
theorem left_read (p : TemplateParser) (word rest : Bytes) :
    (p.read word rest).left = rest.length + 1 := rfl

@[simp]
theorem left_atEnd (p : TemplateParser) (word : Bytes) (fail : Bool) :
    (p.atEnd word fail).left = 0 := rfl

theorem live_le (c : Option Byte) : live c ≤ 1 := by
  rw [live]
  split <;> omega

theorem get_left (p : TemplateParser) : p.get.2.left + live p.get.1 ≤ p.left := by
  cases good : p.isGood with
  | true =>
    rw [get_of_isGood good]
    exact Nat.le_refl _
  | false =>
    rw [eq_read good]
    cases p.reader.rest with
    | nil => simp [live]
    | cons c rest =>
      have small := live_le (some c)
      simp only [get_read_cons, left_read, length_cons]
      omega

theorem get_smaller (good : p.isGood = false) : p.get.2.left < p.left := by
  rw [eq_read good]
  cases p.reader.rest with
  | nil => simp
  | cons c rest => simp

theorem get_reads (p : TemplateParser) : Reads p p.get.2 := by
  refine ⟨?_, (Nat.le_add_right _ _).trans (get_left p)⟩
  cases good : p.isGood with
  | true => simp [get_of_isGood good]
  | false =>
    rw [eq_read good]
    cases p.reader.rest with
    | nil => simp
    | cons c rest => simp

theorem peek_reads (p : TemplateParser) : Reads p p.peek.2 := by
  cases good : p.isGood with
  | true =>
    rw [peek_of_isGood good]
    exact .refl p
  | false =>
    rw [eq_read good]
    cases p.reader.rest with
    | nil => exact ⟨by simp, by simp⟩
    | cons c rest => exact .refl _

theorem peek_some (seen : p.peek.1 = some c) (notNul : c ≠ 0) :
    ∃ rest, p = p.read [] (c :: rest) := by
  cases good : p.isGood with
  | true =>
    rw [peek_of_isGood good] at seen
    exact absurd (Option.some.inj seen).symm notNul
  | false =>
    refine ⟨p.reader.rest.tail, ?_⟩
    have here := eq_read good
    rw [here] at seen
    cases front : p.reader.rest with
    | nil =>
      rw [front] at seen
      cases seen
    | cons d rest =>
      rw [front] at seen here
      rw [peek_read_cons] at seen
      cases seen
      exact here

structure Consumes (p q : TemplateParser) : Prop extends Reads p q where
  left_lt : q.left < p.left

theorem Consumes.trans (first : Consumes p q) (second : Reads q r) : Consumes p r :=
  ⟨first.toReads.trans second, second.left_le.trans_lt first.left_lt⟩

theorem Reads.consumes (first : Reads p q) (second : Consumes q r) : Consumes p r :=
  ⟨first.trans second.toReads, second.left_lt.trans_le first.left_le⟩

theorem Reads.consumes_of_isGood (reads : Reads p q)
    (good : p.isGood = false) (over_ : q.isGood = true) : Consumes p q := by
  refine ⟨reads, ?_⟩
  have shorter := reads.length_le
  rw [left, left, good, over_]
  simp only [if_true, Bool.false_eq_true, if_false]
  omega

theorem get_consumes (good : p.isGood = false) : Consumes p p.get.2 :=
  ⟨get_reads p, get_smaller good⟩

theorem get_consumes_of_live (reads : p.get.1.any (· ≠ 0) = true) : Consumes p p.get.2 := by
  have smaller := get_left p
  rw [live, if_pos reads] at smaller
  exact ⟨get_reads p, smaller⟩

theorem peek_get_consumes (seen : p.peek.1 = some c) (notNul : c ≠ 0) :
    Consumes p p.peek.2.get.2 := by
  rcases peek_some seen notNul with ⟨rest, here⟩
  have good : p.peek.2.isGood = false := by
    rw [here]
    rfl
  exact (peek_reads p).consumes (get_consumes good)

theorem peek_of_any {test : Byte → Bool} (sees : p.peek.1.any test = true) (nul : test 0 = false) :
    ∃ c rest, p = p.read [] (c :: rest) := by
  rcases Option.any_eq_true .. |>.mp sees with ⟨c, seen, holds⟩
  refine ⟨c, peek_some seen ?_⟩
  intro zero
  rw [zero, nul] at holds
  cases holds

theorem peek_get_consumes_of_any {test : Byte → Bool}
    (sees : p.peek.1.any test = true) (nul : test 0 = false) :
    Consumes p p.peek.2.get.2 := by
  rcases peek_of_any sees nul with ⟨c, rest, here⟩
  have good : p.peek.2.isGood = false := by
    rw [here]
    rfl
  exact (peek_reads p).consumes (get_consumes good)

theorem putBack_read_of_ne {b : Byte} (other : c ≠ b) (p : TemplateParser) (word rest : Bytes) :
    ((p.read (word ++ [c]) rest).peek.2.putBack b).reader =
      ⟨c :: (word.reverse ++ p.reader.before), rest, false, true⟩ := by
  have before : (word ++ [c]).reverse ++ p.reader.before =
      c :: (word.reverse ++ p.reader.before) := by
    rw [reverse_append]
    rfl
  cases rest with
  | nil =>
    rw [peek_read_nil, putBack, atEnd]
    simp only [IStream.putback, before, Bool.false_eq_true, if_false, if_neg other]
  | cons d rest =>
    rw [peek_read_cons, putBack, read]
    simp only [IStream.putback, IStream.at_, before, Bool.false_eq_true, if_false, if_neg other]

theorem putBack_peek_read (p : TemplateParser) (word rest : Bytes) (c : Byte) :
    (p.read (word ++ [c]) rest).peek.2.putBack c = p.read word (c :: rest) := by
  cases rest with
  | nil =>
    rw [peek_read_nil]
    exact putBack_atEnd p word c
  | cons d rest =>
    rw [peek_read_cons]
    exact putBack_read p word (d :: rest) c

theorem putBack_reads (p : TemplateParser) (word rest : Bytes) (c b : Byte) :
    Reads (p.read word (c :: rest)) ((p.read (word ++ [c]) rest).peek.2.putBack b) := by
  by_cases same : c = b
  · rw [← same, putBack_peek_read]
    exact .refl _
  · refine ⟨?_, ?_⟩
    · rw [putBack_read_of_ne same]
      exact suffix_cons c rest
    · rw [left, isGood, putBack_read_of_ne same]
      exact Nat.le_succ_of_le (Nat.le_succ _)

theorem putBack_or_fail (p : TemplateParser) (word rest : Bytes) (c b : Byte) :
    (p.read (word ++ [c]) rest).peek.2.putBack b = p.read word (c :: rest) ∨
      ((p.read (word ++ [c]) rest).peek.2.putBack b).reader.fail = true := by
  by_cases same : c = b
  · rw [← same, putBack_peek_read]
    exact .inl rfl
  · right
    rw [putBack_read_of_ne same]

theorem fail_putBack (failed : p.reader.fail = true) (b : Byte) :
    (p.putBack b).reader.fail = true := by
  rw [putBack, IStream.putback]
  simp only [failed, if_true]

theorem putBack_of_fail (failed : p.reader.fail = true) (b : Byte) : Reads p (p.putBack b) := by
  obtain ⟨⟨before, rest, eof, fail⟩, _, line, _, _, _, _⟩ := p
  cases failed
  refine ⟨suffix_refl _, ?_⟩
  simp [left, isGood, putBack, IStream.putback, IStream.good]

/-- A character that was looked at and taken can be put back. -/
theorem putBack_peek_get (seen : p.peek.1 = some c) (notNul : c ≠ 0) :
    p.peek.2.get.2.peek.2.putBack c = p := by
  rcases peek_some seen notNul with ⟨rest, here⟩
  rw [here, peek_read_cons, get_read_cons]
  exact putBack_peek_read p [] rest c

end TemplateParser

end Coast
