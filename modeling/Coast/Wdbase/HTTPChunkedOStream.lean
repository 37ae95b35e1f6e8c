import Coast.Base.Bytes
import Coast.Library.Framing
import Mathlib.Data.Nat.Digits.Defs

/-!
# Chunked output

`HTTPChunkedStreamBuf` collects what is written in a buffer of the size of a
chunk, and sends the buffer as a chunk when it is full or flushed.
-/

namespace Coast

open List

/-- The put area holds `put`, from `pbase()` to `pptr()`; `sent` is what the
wrapped stream got, `fOs` tells whether it is still there. -/
structure HTTPChunkedStreamBuf where
  fBufSize : Nat
  put : Bytes
  fOs : Bool
  sent : Bytes
  deriving DecidableEq, Repr

namespace HTTPChunkedStreamBuf

def endl : Bytes := [ch '\r', ch '\n']

def hexChar (n : Nat) : Byte := (lit "0123456789abcdef").getD n 0

def hexText (n : Nat) : Bytes := if n = 0 then [ch '0'] else ((Nat.digits 16 n).map hexChar).reverse

def eof : Int := -1

/-- `sync`: nothing is sent for an empty buffer. -/
def sync (this : HTTPChunkedStreamBuf) : HTTPChunkedStreamBuf :=
  if !this.fOs then this
  else if 0 < this.put.length then
    { this with
      sent := this.sent ++ (hexText this.put.length ++ endl ++ this.put ++ endl)
      put := [] }
  else this

def store (this : HTTPChunkedStreamBuf) (c : Byte) : HTTPChunkedStreamBuf :=
  { this with put := this.put ++ [c] }

def overflow (this : HTTPChunkedStreamBuf) (c : Int) : HTTPChunkedStreamBuf :=
  let this := this.sync
  if c ≠ eof ∧ this.put.length < this.fBufSize then
    this.store (BitVec.ofInt 8 c)
  else this

def sputc (this : HTTPChunkedStreamBuf) (c : Byte) : HTTPChunkedStreamBuf :=
  if this.put.length < this.fBufSize then this.store c
  else this.overflow c.toNat

def close (this : HTTPChunkedStreamBuf) : HTTPChunkedStreamBuf :=
  if !this.fOs then this
  else
    let this := this.sync
    { this with
      sent := this.sent ++ ([ch '0'] ++ endl ++ endl)
      fOs := false }

def new (chunklength : Nat) : HTTPChunkedStreamBuf := ⟨chunklength, [], true, []⟩

/-- What is done with the stream; its destruction closes it. -/
inductive ChunkedCall where
  | put (c : Byte)
  | flush
  | close
  deriving DecidableEq, Repr

def call (this : HTTPChunkedStreamBuf) : ChunkedCall → HTTPChunkedStreamBuf
  | .put c => this.sputc c
  | .flush => this.sync
  | .close => this.close

def written : List ChunkedCall → Bytes
  | [] => []
  | .put c :: calls => c :: written calls
  | _ :: calls => written calls

def hexCharValue (c : Byte) : Nat :=
  if isdigit c then c.toNat - (ch '0').toNat
  else if ch 'a' ≤ c then c.toNat - (ch 'a').toNat + 10
  else c.toNat - (ch 'A').toNat + 10

/-- The size of a chunk in hexadecimal digits, up to the line end. -/
def readChunkSize (text : Bytes) : Option (Nat × Bytes) :=
  let digits := text.takeWhile isxdigit
  if digits = [] then none
  else match text.dropWhile isxdigit with
    | c :: d :: rest =>
      if [c, d] = endl then
        some (digits.foldl (fun n c => 16 * n + hexCharValue c) 0, rest)
      else none
    | _ => none

theorem hexChar_read {n : Nat} (digit : n < 16) :
    isxdigit (hexChar n) = true ∧ hexCharValue (hexChar n) = n := by
  have all : ∀ n : Fin 16, isxdigit (hexChar n) = true ∧ hexCharValue (hexChar n) = n := by
    decide
  exact all ⟨n, digit⟩

theorem hexText_digits (n : Nat) : ∀ c ∈ hexText n, isxdigit c = true := by
  intro c member
  rw [hexText] at member
  split_ifs at member with zero
  · rw [mem_singleton.mp member]
    decide
  · rcases mem_map.mp (mem_reverse.mp member) with ⟨digit, digits, rfl⟩
    exact (hexChar_read (Nat.digits_lt_base (by decide) digits)).1

theorem hexText_value (n : Nat) : (hexText n).foldl (fun n c => 16 * n + hexCharValue c) 0 = n := by
  rw [hexText]
  split_ifs with zero
  · rw [zero]
    decide
  · have values : ∀ digits : List Nat, (∀ d ∈ digits, d < 16) →
        (digits.map hexChar).foldr (fun c n => 16 * n + hexCharValue c) 0 =
          Nat.ofDigits 16 digits := by
      intro digits small
      induction digits with
      | nil => rfl
      | cons d digits ih =>
        rw [map_cons, foldr_cons, ih (forall_mem_cons.mp small).2,
          (hexChar_read (small d mem_cons_self)).2, Nat.ofDigits_cons]
        omega
    rw [foldl_reverse, values _
      (fun d member => Nat.digits_lt_base (by decide) member),
      Nat.ofDigits_digits]

theorem hexText_ne_nil (n : Nat) : hexText n ≠ [] := by
  rw [hexText]
  split_ifs with zero
  · nofun
  · simp [Nat.digits_ne_nil_iff_ne_zero, zero]

theorem readChunkSize_hexText (n : Nat) (rest : Bytes) :
    readChunkSize (hexText n ++ endl ++ rest) = some (n, rest) := by
  have digits := hexText_digits n
  have stop : isxdigit (ch '\r') = false := by decide
  have split : hexText n ++ endl ++ rest = hexText n ++ ch '\r' :: ch '\n' :: rest := by
    simp [endl]
  rw [split, readChunkSize, takeWhile_append_of_pos digits, dropWhile_append_of_pos digits]
  simp [stop, hexText_ne_nil, hexText_value, endl]

/-- Chunk sizes in base 16, as a reader of the transfer coding takes them. -/
def chunkedCoding : Framing.Coding Byte where
  header n := hexText n ++ endl
  readHeader := readChunkSize
  mark := endl
  reads := readChunkSize_hexText
  filled := by
    intro n
    simp [endl]

def decodeChunks (text : Bytes) : Option (List Bytes × Bytes) := Framing.decode chunkedCoding text

/-- The chunks that were sent and the put area hold what was written. -/
structure Sent (chunklength : Nat) (text : Bytes) (chunks : List Bytes)
    (this : HTTPChunkedStreamBuf) : Prop where
  open_ : this.fOs = true
  size : this.fBufSize = chunklength
  sent : this.sent = chunks.flatMap (Framing.frame chunkedCoding)
  text : chunks.flatten ++ this.put = text
  bounds : ∀ chunk ∈ chunks, 1 ≤ chunk.length ∧ chunk.length ≤ chunklength
  room : this.put.length ≤ chunklength

section

variable {chunklength : Nat} {text : Bytes} {chunks : List Bytes} {this : HTTPChunkedStreamBuf}

theorem new_sent : Sent chunklength [] [] (new chunklength) where
  open_ := rfl
  size := rfl
  sent := rfl
  text := rfl
  bounds := nofun
  room := Nat.zero_le _

section

variable (holds : Sent chunklength text chunks this)
include holds

theorem Sent.sync : ∃ chunks', Sent chunklength text chunks' this.sync ∧ this.sync.put = [] := by
  rw [HTTPChunkedStreamBuf.sync, holds.open_]
  simp only [Bool.not_true, Bool.false_eq_true, if_false]
  split_ifs with some_
  · refine ⟨chunks ++ [this.put], ?_, rfl⟩
    constructor
    · rfl
    · exact holds.size
    · simp [holds.sent, Framing.frame, chunkedCoding]
    · simpa using holds.text
    · intro chunk member
      rcases mem_append.mp member with before | last
      · exact holds.bounds chunk before
      · rw [mem_singleton.mp last]
        exact ⟨some_, holds.room⟩
    · exact Nat.zero_le _
  · have empty : this.put = [] := by
      apply length_eq_zero_iff.mp
      omega
    exact ⟨chunks, holds, empty⟩

theorem Sent.store (c : Byte) (space : this.put.length < chunklength) :
    Sent chunklength (text ++ [c]) chunks (this.store c) where
  open_ := holds.open_
  size := holds.size
  sent := holds.sent
  text := by
    rw [← holds.text]
    exact (append_assoc _ _ _).symm
  bounds := holds.bounds
  room := by
    simp only [HTTPChunkedStreamBuf.store, length_append, length_singleton]
    omega

theorem Sent.sputc (c : Byte) (positive : 1 ≤ chunklength) :
    ∃ chunks', Sent chunklength (text ++ [c]) chunks' (this.sputc c) := by
  rw [HTTPChunkedStreamBuf.sputc]
  split_ifs with space
  · rw [holds.size] at space
    exact ⟨chunks, holds.store c space⟩
  · rcases holds.sync with ⟨chunks', synced, empty⟩
    refine ⟨chunks', ?_⟩
    have character : (c.toNat : Int) ≠ eof := by
      rw [eof]
      omega
    have space' : this.sync.put.length < this.sync.fBufSize := by
      rw [empty, synced.size]
      exact positive
    have same : BitVec.ofInt 8 (c.toNat : Int) = c := by
      rw [BitVec.ofInt_natCast, BitVec.ofNat_toNat, BitVec.setWidth_eq]
    rw [overflow, if_pos ⟨character, space'⟩, same]
    apply synced.store
    rw [empty]
    exact positive

theorem Sent.calls
    (positive : 1 ≤ chunklength) {calls : List ChunkedCall} (going : ChunkedCall.close ∉ calls) :
    ∃ chunks', Sent chunklength (text ++ written calls) chunks' (calls.foldl call this) := by
  induction calls generalizing this text chunks with
  | nil =>
    refine ⟨chunks, ?_⟩
    rw [written, append_nil]
    exact holds
  | cons first calls ih =>
    have later : ChunkedCall.close ∉ calls := fun member =>
      going (mem_cons_of_mem first member)
    cases first with
    | put c =>
      rcases holds.sputc c positive with ⟨chunks', stored⟩
      rcases ih stored later with ⟨chunks'', after⟩
      rw [append_assoc] at after
      exact ⟨chunks'', after⟩
    | flush =>
      rcases holds.sync with ⟨chunks', synced, _⟩
      exact ih synced later
    | close => exact absurd mem_cons_self going

theorem Sent.close :
    ∃ chunks', this.close.fOs = false ∧ this.close.sent = Framing.encode chunkedCoding chunks' ∧
      chunks'.flatten = text ∧
      ∀ chunk ∈ chunks', 1 ≤ chunk.length ∧ chunk.length ≤ chunklength := by
  rcases holds.sync with ⟨chunks', synced, empty⟩
  refine ⟨chunks', ?_, ?_, ?_, synced.bounds⟩
  · simp [HTTPChunkedStreamBuf.close, holds.open_]
  · simp [HTTPChunkedStreamBuf.close, holds.open_, synced.sent,
      Framing.encode, Framing.frame, chunkedCoding, hexText]
  · have all := synced.text
    rw [empty, append_nil] at all
    exact all

end

theorem closed_calls (closed : this.fOs = false) (calls : List ChunkedCall) :
    (calls.foldl call this).sent = this.sent := by
  have synced : this.sync = this := by
    simp [HTTPChunkedStreamBuf.sync, closed]
  induction calls generalizing this with
  | nil => rfl
  | cons first calls ih =>
    have kept : (this.call first).fOs = false ∧ (this.call first).sent = this.sent := by
      cases first with
      | put c =>
        rw [call, HTTPChunkedStreamBuf.sputc, overflow, synced]
        split_ifs <;> exact ⟨closed, rfl⟩
      | flush =>
        rw [call, synced]
        exact ⟨closed, rfl⟩
      | close => simp [call, HTTPChunkedStreamBuf.close, closed]
    have synced' : (this.call first).sync = this.call first := by
      simp [HTTPChunkedStreamBuf.sync, kept.1]
    rw [foldl_cons, ih kept.1 synced', kept.2]

end

/-- The bytes that are sent up to the first close, whatever is called after
it, are one message of the transfer coding for what was written. -/
theorem decodeChunks_closed {chunklength : Nat} (positive : 1 ≤ chunklength)
    {calls : List ChunkedCall} (going : ChunkedCall.close ∉ calls) (more : List ChunkedCall) :
    ∃ chunks, decodeChunks
        ((calls ++ .close :: more).foldl call (new chunklength)).sent = some (chunks, []) ∧
      chunks.flatten = written calls ∧
      ∀ chunk ∈ chunks, 1 ≤ chunk.length ∧ chunk.length ≤ chunklength := by
  rcases new_sent.calls positive going with ⟨chunks, holds⟩
  rcases holds.close with ⟨chunks', closed, sent, text, bounds⟩
  refine ⟨chunks', ?_, text, bounds⟩
  have filled : ∀ chunk ∈ chunks', chunk ≠ [] := by
    rintro chunk member rfl
    exact absurd (bounds [] member).1 (by decide)
  have decoded := Framing.decode_encode chunkedCoding [] filled
  rw [append_nil] at decoded
  rw [foldl_append, foldl_cons, call, closed_calls closed, sent]
  exact decoded

private def fooCalls : List ChunkedCall := [.put (ch 'f'), .put (ch 'o'), .flush, .put (ch 'o')]

theorem decodeChunks_closed_foo :
    ∃ chunks, decodeChunks
        ((fooCalls ++ ChunkedCall.close :: [.close]).foldl call (new 2)).sent = some (chunks, []) ∧
      chunks.flatten = written fooCalls ∧
      ∀ chunk ∈ chunks, 1 ≤ chunk.length ∧ chunk.length ≤ 2 :=
  decodeChunks_closed (by decide) (by decide) [.close]

end HTTPChunkedStreamBuf

end Coast
