import Coast.Base.Bytes
import Mathlib.Algebra.Ring.Nat
import Mathlib.Data.List.Infix

/-!
# What the streams rely on of zlib

The functions of zlib are parameters.  Their contract says that what was
deflated is inflated again, in whatever pieces both are done.
-/

namespace Coast

def Z_OK : Int := 0

def Z_STREAM_END : Int := 1

def Z_DATA_ERROR : Int := -3

inductive Flush where
  | noFlush
  | finish
  deriving DecidableEq, Repr

/-- What a call of `deflate` or `inflate` leaves: how much of its input it
took and what it gave. -/
structure Called (σ : Type) where
  state : σ
  consumed : Nat
  out : Bytes
  err : Int

/-- The calls of zlib, with states of their own. -/
structure Zlib where
  Deflate : Type
  Inflate : Type
  deflateInit : Deflate
  deflate : Deflate → Flush → Bytes → Nat → Called Deflate
  /-- What an input of this length or less is deflated to at most. -/
  deflateBound : Nat → Nat
  inflateInit : Inflate
  inflate : Inflate → Bytes → Nat → Called Inflate
  crc32 : Nat → Bytes → Nat

namespace Zlib

variable (z : Zlib)

/-- The state after calls that took `i` and gave `o`. -/
inductive Sent : z.Deflate → Bytes → Bytes → Prop
  | init : Sent z.deflateInit [] []
  | call {d : z.Deflate} {i o : Bytes} (sent : Sent d i o) (input : Bytes) (room : Nat) :
      Sent (z.deflate d .noFlush input room).state
        (i ++ input.take (z.deflate d .noFlush input room).consumed)
        (o ++ (z.deflate d .noFlush input room).out)

/-- The state after calls without more input that have not given all. -/
inductive Finishing : z.Deflate → Bytes → Bytes → Prop
  | start {d : z.Deflate} {i o : Bytes} (sent : z.Sent d i o) : Finishing d i o
  | call {d : z.Deflate} {i o : Bytes} (finishing : Finishing d i o)
      (room : Nat) (goesOn : (z.deflate d .finish [] room).err = Z_OK) :
      Finishing (z.deflate d .finish [] room).state i (o ++ (z.deflate d .finish [] room).out)

/-- The input goes on with the compressed text and what is behind it. -/
def Agrees (text c input : Bytes) : Prop := ∃ behind, c ++ input <+: text ++ behind

/-- The state after calls that took `c` of a compressed text, gave `o` and did
not reach the end. -/
inductive Received (text : Bytes) : z.Inflate → Bytes → Bytes → Prop
  | init : Received text z.inflateInit [] []
  | call {s : z.Inflate} {c o : Bytes} (received : Received text s c o)
      {input : Bytes} (agrees : Agrees text c input) (some' : input ≠ [])
      {room : Nat} (positive : 0 < room)
      (goesOn : (z.inflate s input room).err = Z_OK) :
      Received text (z.inflate s input room).state
        (c ++ input.take (z.inflate s input room).consumed) (o ++ (z.inflate s input room).out)

/-- A call goes on in the text and in the data: it reaches the end of both, or
takes all input or fills all the room. -/
structure Inflates (data text c o input : Bytes) (room : Nat) {σ : Type}
    (called : Called σ) : Prop where
  consumed_le : called.consumed ≤ input.length
  out_le : called.out.length ≤ room
  inside : c ++ input.take called.consumed <+: text
  right : o ++ called.out <+: data
  outcome :
    (called.err = Z_STREAM_END ∧ c ++ input.take called.consumed = text ∧ o ++ called.out = data) ∨
    (called.err = Z_OK ∧ (0 < called.consumed ∨ called.out ≠ []) ∧
      (called.consumed = input.length ∨ called.out.length = room))

theorem Inflates.stops {data text c o input : Bytes} {room : Nat} {σ : Type} {called : Called σ}
    (inflates : Inflates data text c o input room called) :
    called.err ≠ Z_OK ∨ called.consumed = input.length ∨ called.out.length = room := by
  rcases inflates.outcome with ⟨ended, _, _⟩ | ⟨_, _, full⟩
  · left
    rw [ended]
    decide
  · exact .inr full

/-- The text is inflated to the data, in whatever pieces it comes. -/
def Encodes (data text : Bytes) : Prop :=
  ∀ s c o, z.Received text s c o → ∀ input room, Agrees text c input → input ≠ [] → 0 < room →
    Inflates data text c o input room (z.inflate s input room)

/-- What the streams rely on of zlib. -/
structure Contract : Prop where
  deflate_le : ∀ d flush input room, (z.deflate d flush input room).consumed ≤ input.length ∧
      (z.deflate d flush input room).out.length ≤ room
  deflate_noFlush : ∀ d i o, z.Sent d i o → ∀ input room, input ≠ [] →
    0 < room → (z.deflate d .noFlush input room).err = Z_OK ∧
      (0 < (z.deflate d .noFlush input room).consumed ∨ (z.deflate d .noFlush input room).out ≠ [])
  deflate_finish : ∀ d i o, z.Finishing d i o → ∀ room, 0 < room →
    (z.deflate d .finish [] room).err = Z_STREAM_END ∨
      ((z.deflate d .finish [] room).err = Z_OK ∧ (z.deflate d .finish [] room).out ≠ [])
  deflate_bound : ∀ d i o, z.Finishing d i o → ∀ n, i.length ≤ n → o.length ≤ z.deflateBound n
  inflate_deflate : ∀ d i o, z.Finishing d i o → ∀ room, 0 < room →
    (z.deflate d .finish [] room).err = Z_STREAM_END →
    z.Encodes i (o ++ (z.deflate d .finish [] room).out)
  crc32_nil : z.crc32 0 [] = 0
  crc32_append : ∀ first second, z.crc32 (z.crc32 0 first) second = z.crc32 0 (first ++ second)
  crc32_lt : ∀ s, z.crc32 0 s < 2 ^ 32

/-! ## A file in blocks -/

/-- What zlib is given next: what it did not take of the last block, else the
next block of the file. -/
def block (capacity : Nat) (avail file : Bytes) : Bytes :=
  if avail = [] then file.take capacity else avail

/-- What is behind that block. -/
def below (capacity : Nat) (avail file : Bytes) : Bytes :=
  if avail = [] then file.drop capacity else file

/-- What zlib answers to the next block. -/
def answer (capacity : Nat) (s : z.Inflate) (avail file : Bytes) : Called z.Inflate :=
  z.inflate s (block capacity avail file) capacity

/-- What zlib leaves of the block it answered to. -/
def untaken (capacity : Nat) (s : z.Inflate) (avail file : Bytes) : Bytes :=
  (block capacity avail file).drop (z.answer capacity s avail file).consumed

theorem block_append_below (capacity : Nat) (avail file : Bytes) :
    block capacity avail file ++ below capacity avail file = avail ++ file := by
  unfold block below
  split
  · rename_i nothing
    rw [nothing, List.nil_append]
    exact List.take_append_drop capacity file
  · rfl

theorem block_ne_nil {capacity : Nat} {avail file : Bytes} (positive : 0 < capacity)
    (left : avail ++ file ≠ []) : block capacity avail file ≠ [] := by
  unfold block
  split
  · rename_i nothing
    rw [nothing, List.nil_append] at left
    intro empty
    rcases List.take_eq_nil_iff.mp empty with zero | none
    · omega
    · exact left none
  · assumption

variable {z} in
theorem Encodes.answer {data text trailer avail file c o : Bytes} {s : z.Inflate} {capacity : Nat}
    (encodes : z.Encodes data text) (received : z.Received text s c o)
    (inside : c ++ (avail ++ file) <+: text ++ trailer) (left : avail ++ file ≠ [])
    (positive : 0 < capacity) :
    Inflates data text c o (block capacity avail file) capacity (z.answer capacity s avail file) := by
  have agrees : Agrees text c (block capacity avail file) := by
    refine ⟨trailer, List.IsPrefix.trans ?_ inside⟩
    rw [← block_append_below capacity avail file, ← List.append_assoc]
    exact List.prefix_append _ _
  exact encodes _ _ _ received _ _ agrees (block_ne_nil positive left) positive

end Zlib

/-!
## A plain zlib

A zlib that keeps the contract.  It deflates single letters `a` and `b` as the
real one does, and other data to every byte behind a zero.
-/

namespace PlainZlib

def body : Bytes → Bytes
  | [] => [1]
  | byte :: s => 0 :: byte :: body s

def encode (s : Bytes) : Bytes :=
  if s = [97] then [0x4b, 4, 0]
  else if s = [98] then [0x4b, 2, 0]
  else body s

def decodeBody : Bytes → Option Bytes
  | [] => none
  | [flag] => if flag = 1 then some [] else none
  | flag :: byte :: rest =>
    if flag = 0 then (decodeBody rest).map (byte :: ·) else none

def decode (c : Bytes) : Option Bytes :=
  if c = [0x4b, 4, 0] then some [97]
  else if c = [0x4b, 2, 0] then some [98]
  else decodeBody c

theorem decodeBody_prefix {c s : Bytes} (inside : c <+: body s) :
    decodeBody c = if c = body s then some s else none := by
  induction s generalizing c with
  | nil =>
    rcases inside with ⟨t, isBody⟩
    cases c with
    | nil => rfl
    | cons flag c =>
      injection isBody with isFlag isRest
      have nothing := (List.append_eq_nil_iff.mp isRest).1
      rw [isFlag, nothing]
      rfl
  | cons byte s ih =>
    rcases inside with ⟨t, isBody⟩
    match c with
    | [] => rfl
    | [flag] =>
      injection isBody with isFlag isRest
      rw [isFlag]
      rfl
    | flag :: first :: c =>
      injection isBody with isFlag isRest
      injection isRest with isFirst isTail
      have tail := ih ⟨t, isTail⟩
      rw [isFlag, isFirst, decodeBody, if_pos rfl, tail, body]
      by_cases all : c = body s
      · rw [if_pos all, all, if_pos rfl]
        rfl
      · have notAll : ¬ ((0 : Byte) :: byte :: c = 0 :: byte :: body s) :=
          fun same => all (List.cons.inj (List.cons.inj same).2).2
        rw [if_neg all, if_neg notAll]
        rfl

theorem not_body {c s : Bytes} (inside : c <+: body s) (second : Byte) : c ≠ [0x4b, second, 0] := by
  intro isLetter
  rw [isLetter] at inside
  cases s with
  | nil =>
    rcases inside with ⟨t, isBody⟩
    injection isBody with isFlag isRest
    exact absurd isFlag (by decide)
  | cons byte s =>
    rcases inside with ⟨t, isBody⟩
    injection isBody with isFlag isRest
    exact absurd isFlag (by decide)

theorem decode_of_isPrefix {c s : Bytes} (inside : c <+: encode s) :
    decode c = if c = encode s then some s else none := by
  by_cases isA : s = [97]
  · rw [isA] at inside ⊢
    have begins := (List.mem_inits c (encode [97])).mpr inside
    have all : ∀ c ∈ (encode [97]).inits,
        decode c = if c = encode [97] then some [97] else none := by
      decide
    exact all c begins
  by_cases isB : s = [98]
  · rw [isB] at inside ⊢
    have begins := (List.mem_inits c (encode [98])).mpr inside
    have all : ∀ c ∈ (encode [98]).inits,
        decode c = if c = encode [98] then some [98] else none := by
      decide
    exact all c begins
  have isBody : encode s = body s := by
    rw [encode, if_neg isA, if_neg isB]
  rw [isBody] at inside ⊢
  rw [decode, if_neg (not_body inside 4), if_neg (not_body inside 2)]
  exact decodeBody_prefix inside

theorem encode_ne_nil (s : Bytes) : encode s ≠ [] := by
  unfold encode
  split
  · exact List.cons_ne_nil _ _
  · split
    · exact List.cons_ne_nil _ _
    · cases s with
      | nil => exact List.cons_ne_nil _ _
      | cons byte s => exact List.cons_ne_nil _ _

theorem encode_length_le (s : Bytes) : (encode s).length ≤ 2 * s.length + 3 := by
  have bodyLength : ∀ s, (body s).length = 2 * s.length + 1 := by
    intro s
    induction s with
    | nil => rfl
    | cons byte s ih =>
      rw [body, List.length_cons, List.length_cons, ih, List.length_cons]
      omega
  unfold encode
  split
  · exact Nat.le_add_left 3 _
  · split
    · exact Nat.le_add_left 3 _
    · rw [bodyLength]
      omega

def drain {σ : Type} (draining : Bytes → σ) (rest : Bytes) (room consumed : Nat) : Called σ :=
  if rest.length ≤ room then ⟨draining [], consumed, rest, Z_STREAM_END⟩
  else ⟨draining (rest.drop room), consumed, rest.take room, Z_OK⟩

inductive Deflating where
  | gathering (i : Bytes)
  | draining (rest : Bytes)

def deflate : Deflating → Flush → Bytes → Nat → Called Deflating
  | .gathering i, .noFlush, input, _ =>
    ⟨.gathering (i ++ input), input.length, [], Z_OK⟩
  | .gathering i, .finish, input, room =>
    drain .draining (encode (i ++ input)) room input.length
  | .draining rest, _, _, room => drain .draining rest room 0

inductive Inflating where
  | gathering (c : Bytes)
  | draining (rest : Bytes)

def need : Bytes → Bytes → Nat
  | _, [] => 0
  | c, byte :: input =>
    if (decode c).isSome then 0 else need (c ++ [byte]) input + 1

def inflate : Inflating → Bytes → Nat → Called Inflating
  | .gathering c, input, room =>
    match decode (c ++ input.take (need c input)) with
    | some s => drain .draining s room (need c input)
    | none =>
      ⟨.gathering (c ++ input.take (need c input)), need c input, [], Z_OK⟩
  | .draining rest, _, room => drain .draining rest room 0

def crcBit (r : BitVec 32) : BitVec 32 :=
  if r.getLsbD 0 then (r >>> 1) ^^^ 0xedb88320#32 else r >>> 1

def crcByte (r : BitVec 32) (byte : Byte) : BitVec 32 :=
  Nat.repeat crcBit 8 (r ^^^ byte.setWidth 32)

def crc32 (crc : Nat) (s : Bytes) : Nat := (~~~ s.foldl crcByte (~~~ BitVec.ofNat 32 crc)).toNat

end PlainZlib

/-- A zlib that gathers the text and puts it out at the end. -/
abbrev plainZlib : Zlib where
  Deflate := PlainZlib.Deflating
  Inflate := PlainZlib.Inflating
  deflateInit := .gathering []
  deflate := PlainZlib.deflate
  deflateBound n := 2 * n + 3
  inflateInit := .gathering []
  inflate := PlainZlib.inflate
  crc32 := PlainZlib.crc32

namespace PlainZlib

theorem crc32_append (crc : Nat) (first second : Bytes) :
    crc32 (crc32 crc first) second = crc32 crc (first ++ second) := by
  unfold crc32
  rw [BitVec.ofNat_toNat, BitVec.setWidth_eq, BitVec.not_not, List.foldl_append]

example : crc32 0 [0x61] = 0xe8b7be43 := by decide

theorem drain_le {σ : Type} (draining : Bytes → σ) (rest : Bytes) (room consumed : Nat) :
    (drain draining rest room consumed).consumed = consumed ∧
      (drain draining rest room consumed).out.length ≤ room := by
  unfold drain
  split
  · exact ⟨rfl, ‹_›⟩
  · exact ⟨rfl, List.length_take_le room rest⟩

theorem drain_cases {σ : Type} (draining : Bytes → σ) (rest : Bytes) (room consumed : Nat) :
    ((drain draining rest room consumed).err = Z_STREAM_END ∧
      (drain draining rest room consumed).out = rest) ∨
    ((drain draining rest room consumed).err = Z_OK ∧
      (drain draining rest room consumed).out.length = room ∧
      ∃ left, left ≠ [] ∧ (drain draining rest room consumed).state = draining left ∧
        (drain draining rest room consumed).out ++ left = rest) := by
  unfold drain
  split
  · exact .inl ⟨rfl, rfl⟩
  · rename_i long
    refine .inr ⟨rfl, ?_, rest.drop room, ?_, rfl, List.take_append_drop _ _⟩
    · exact List.length_take_of_le (by omega)
    · intro nothing
      have short := List.drop_eq_nil_iff.mp nothing
      omega

theorem sent_gathering {d : plainZlib.Deflate} {i o : Bytes}
    (sent : plainZlib.Sent d i o) : d = Deflating.gathering i ∧ o = [] := by
  induction sent with
  | init => exact ⟨rfl, rfl⟩
  | call sent input room ih =>
    rcases ih with ⟨isGathering, nothing⟩
    rw [isGathering, nothing]
    show Deflating.gathering _ = .gathering (_ ++ input.take input.length) ∧ ([] : Bytes) = []
    rw [List.take_length]
    exact ⟨rfl, rfl⟩

def left : Deflating → Bytes
  | .gathering i => encode i
  | .draining rest => rest

theorem deflate_finish (d : Deflating) (room : Nat) :
    deflate d .finish [] room = drain .draining (left d) room 0 := by
  cases d with
  | gathering i =>
    rw [deflate, List.append_nil]
    rfl
  | draining rest => rfl

theorem finishing_left {d : plainZlib.Deflate} {i o : Bytes}
    (finishing : plainZlib.Finishing d i o) :
    o ++ left d = encode i ∧ left d ≠ [] := by
  induction finishing with
  | start sent =>
    rename_i d i o
    rcases sent_gathering sent with ⟨isGathering, nothing⟩
    rw [isGathering, nothing]
    exact ⟨rfl, encode_ne_nil i⟩
  | call finishing room goesOn ih =>
    rename_i d i o
    have isDrain : plainZlib.deflate d .finish [] room =
        drain .draining (left d) room 0 := deflate_finish d room
    rw [isDrain] at goesOn ⊢
    rcases drain_cases Deflating.draining (left d) room 0 with
        ⟨ended, _⟩ | ⟨_, _, rest, some', isState, split⟩
    · rw [ended] at goesOn
      exact absurd goesOn (by decide)
    · rw [isState]
      refine ⟨?_, some'⟩
      rw [List.append_assoc]
      show o ++ (_ ++ rest) = _
      rw [split]
      exact ih.1

theorem isSome_decode {c s : Bytes} (inside : c <+: encode s) :
    (decode c).isSome = true ↔ c = encode s := by
  rw [decode_of_isPrefix inside]
  split
  · exact ⟨fun _ => ‹_›, fun _ => rfl⟩
  · exact ⟨nofun, fun all => absurd all ‹_›⟩

theorem need_le (c input : Bytes) : need c input ≤ input.length := by
  induction input generalizing c with
  | nil => exact Nat.le_refl 0
  | cons byte input ih =>
    rw [need]
    split
    · exact Nat.zero_le _
    · exact Nat.succ_le_succ (ih _)

theorem next_inside {text c input behind : Bytes} {byte : Byte}
    (inside : c <+: text) (notAll : c ≠ text) (agrees : c ++ byte :: input <+: text ++ behind) :
    c ++ [byte] <+: text := by
  rcases inside with ⟨t, isText⟩
  rcases agrees with ⟨w, agrees⟩
  rw [← isText, List.append_assoc, List.append_assoc] at agrees
  have tails := List.append_cancel_left agrees
  cases t with
  | nil =>
    rw [List.append_nil] at isText
    exact absurd isText notAll
  | cons first t =>
    injection tails with isFirst isRest
    refine ⟨t, ?_⟩
    rw [List.append_assoc, isFirst]
    exact isText

theorem need_spec {s : Bytes} (input : Bytes) {c : Bytes}
    (inside : c <+: encode s) (agrees : Zlib.Agrees (encode s) c input) :
    c ++ input.take (need c input) = encode s ∨ (c ++ input.take (need c input) <+: encode s ∧
        c ++ input.take (need c input) ≠ encode s ∧
        need c input = input.length) := by
  induction input generalizing c with
  | nil =>
    rw [List.take_nil, List.append_nil]
    by_cases all : c = encode s
    · exact .inl all
    · exact .inr ⟨inside, all, rfl⟩
  | cons byte input ih =>
    by_cases all : c = encode s
    · left
      rw [need, if_pos ((isSome_decode inside).mpr all), List.take_zero, List.append_nil, all]
    · have missing := fun found => all ((isSome_decode inside).mp found)
      rcases agrees with ⟨behind, agrees⟩
      have longer : c ++ [byte] <+: encode s := next_inside inside all agrees
      have agrees' : Zlib.Agrees (encode s) (c ++ [byte]) input := by
        refine ⟨behind, ?_⟩
        rwa [List.append_assoc]
      have rest := ih longer agrees'
      rw [need, if_neg missing, List.take_succ_cons]
      rw [List.append_assoc, List.singleton_append] at rest
      rcases rest with all' | ⟨inside', notAll, taken⟩
      · exact .inl all'
      · exact .inr ⟨inside', notAll, congrArg (· + 1) taken⟩

/-- Where zlib is in a text that `c` was taken of. -/
inductive At (s c o : Bytes) : Inflating → Prop
  | gathering (inside : c <+: encode s) (notAll : c ≠ encode s)
      (nothing : o = []) : At s c o (.gathering c)
  | draining {rest : Bytes} (all : c = encode s) (split : o ++ rest = s)
      (some' : rest ≠ []) : At s c o (.draining rest)

theorem drain_inflates {s c o rest input : Bytes} {room consumed : Nat}
    (positive : 0 < room) (le : consumed ≤ input.length)
    (all : c ++ input.take consumed = encode s) (split : o ++ rest = s) :
    Zlib.Inflates s (encode s) c o input room
        (drain Inflating.draining rest room consumed) ∧
      ((drain Inflating.draining rest room consumed).err = Z_OK →
        At s (encode s) (o ++ (drain Inflating.draining rest room consumed).out)
          (drain Inflating.draining rest room consumed).state) := by
  rcases drain_le Inflating.draining rest room consumed with ⟨sameConsumed, outLe⟩
  have cases := drain_cases Inflating.draining rest room consumed
  obtain ⟨called, isCalled⟩ : ∃ called, called =
      drain Inflating.draining rest room consumed := ⟨_, rfl⟩
  rw [← isCalled] at sameConsumed outLe cases ⊢
  rcases cases with ⟨ended, isRest⟩ | ⟨ok, full, left, some', isState, parts⟩
  · have isData : o ++ called.out = s := by rw [isRest, split]
    constructor
    · refine ⟨?_, outLe, ?_, ?_, .inl ⟨ended, ?_, isData⟩⟩
      · rw [sameConsumed]
        exact le
      · rw [sameConsumed, all]
      · rw [isData]
      · rw [sameConsumed, all]
    · intro ok
      rw [ended] at ok
      exact absurd ok (by decide)
  · have isData : (o ++ called.out) ++ left = s := by
      rw [List.append_assoc, parts, split]
    constructor
    · refine ⟨?_, outLe, ?_, ⟨left, isData⟩, .inr ⟨ok, .inr ?_, .inr full⟩⟩
      · rw [sameConsumed]
        exact le
      · rw [sameConsumed, all]
      · intro nothing
        rw [nothing, List.length_nil] at full
        omega
    · intro _
      rw [isState]
      exact .draining rfl isData some'

theorem At.inflate {s c o input : Bytes} {state : Inflating} {room : Nat} (at' : At s c o state)
    (agrees : Zlib.Agrees (encode s) c input) (some_in : input ≠ []) (positive : 0 < room) :
    Zlib.Inflates s (encode s) c o input room (inflate state input room) ∧
      ((inflate state input room).err = Z_OK →
        At s (c ++ input.take (inflate state input room).consumed)
          (o ++ (inflate state input room).out)
          (inflate state input room).state) := by
  cases at' with
  | draining all split some' =>
    rename_i rest
    have taken : c ++ input.take 0 = encode s := by
      rw [List.take_zero, List.append_nil, all]
    have drains := drain_inflates positive (Nat.zero_le _) taken split
    refine ⟨drains.1, fun ok => ?_⟩
    rw [PlainZlib.inflate, (drain_le Inflating.draining rest room 0).1, taken]
    exact drains.2 ok
  | gathering inside notAll nothing =>
    have le := need_le c input
    have split : o ++ s = s := by rw [nothing, List.nil_append]
    rcases need_spec input inside agrees with all | ⟨inside', notAll', taken⟩
    · have decoded : decode (c ++ input.take (need c input)) = some s := by
        rw [all, decode_of_isPrefix (List.prefix_refl _), if_pos rfl]
      have isDrain : PlainZlib.inflate (.gathering c) input room =
          drain .draining s room (need c input) := by
        rw [PlainZlib.inflate, decoded]
      have drains := drain_inflates positive le all split
      rw [isDrain]
      refine ⟨drains.1, fun ok => ?_⟩
      rw [(drain_le Inflating.draining s room (need c input)).1, all]
      exact drains.2 ok
    · have decoded : decode (c ++ input.take (need c input)) = none := by
        rw [decode_of_isPrefix inside', if_neg notAll']
      have gathers : PlainZlib.inflate (.gathering c) input room =
          ⟨.gathering (c ++ input.take (need c input)), need c input, [], Z_OK⟩ := by
        rw [PlainZlib.inflate, decoded]
      have long := List.length_pos_iff.mpr some_in
      rw [gathers]
      constructor
      · refine ⟨le, Nat.zero_le _, inside', ?_, .inr ⟨rfl, .inl ?_, .inl taken⟩⟩
        · rw [nothing]
          exact List.nil_prefix
        · show 0 < need c input
          omega
      · intro _
        refine .gathering inside' notAll' ?_
        rw [nothing]
        rfl

theorem received_at {s c o : Bytes} {state : plainZlib.Inflate}
    (received : plainZlib.Received (encode s) state c o) :
    At s c o state := by
  induction received with
  | init =>
    exact .gathering List.nil_prefix (encode_ne_nil s).symm rfl
  | call received agrees some' positive goesOn ih =>
    exact (ih.inflate agrees some' positive).2 goesOn

theorem encodes (s : Bytes) : plainZlib.Encodes s (encode s) :=
  fun _ _ _ received _ _ agrees some' positive =>
    ((received_at received).inflate agrees some' positive).1

/-- There is such a zlib. -/
theorem contract : plainZlib.Contract where
  deflate_le d flush input room := by
    cases d with
    | gathering i =>
      cases flush with
      | noFlush => exact ⟨Nat.le_refl _, Nat.zero_le _⟩
      | finish =>
        have le := drain_le Deflating.draining (encode (i ++ input)) room input.length
        exact ⟨Nat.le_of_eq le.1, le.2⟩
    | draining rest =>
      have le := drain_le Deflating.draining rest room 0
      exact ⟨Nat.le_trans (Nat.le_of_eq le.1) (Nat.zero_le _), le.2⟩
  deflate_noFlush d i o sent input room some' positive := by
    rw [(sent_gathering sent).1]
    exact ⟨rfl, .inl (List.length_pos_iff.mpr some')⟩
  deflate_finish d i o finishing room positive := by
    have isDrain : plainZlib.deflate d .finish [] room =
        drain .draining (left d) room 0 := deflate_finish d room
    rw [isDrain]
    rcases drain_cases Deflating.draining (left d) room 0 with ⟨ended, _⟩ | ⟨ok, full, _⟩
    · exact .inl ended
    · refine .inr ⟨ok, fun nothing => ?_⟩
      rw [nothing, List.length_nil] at full
      omega
  deflate_bound d i o finishing n le := by
    have total := congrArg List.length (finishing_left finishing).1
    rw [List.length_append] at total
    have bound := encode_length_le i
    show o.length ≤ 2 * n + 3
    omega
  inflate_deflate d i o finishing room positive ended := by
    have isDrain : plainZlib.deflate d .finish [] room =
        drain .draining (left d) room 0 := deflate_finish d room
    rw [isDrain] at ended ⊢
    rcases drain_cases Deflating.draining (left d) room 0 with ⟨_, isLeft⟩ | ⟨ok, _⟩
    · rw [isLeft, (finishing_left finishing).1]
      exact encodes i
    · rw [ok] at ended
      exact absurd ended (by decide)
  crc32_nil := by decide
  crc32_append := crc32_append 0
  crc32_lt s := BitVec.isLt _

end PlainZlib

end Coast
