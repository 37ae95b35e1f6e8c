import Coast.Base.Bytes
import Mathlib.Algebra.Ring.Nat

/-!
# The MD5 signer

A signed text begins with the digest of the text and the key and ends with a
`$`, in case something is appended to it on its way.
-/

namespace Coast.Security

namespace MD5Signer

/-- The digest after an `Update` with a message and one with the key. -/
abbrev Digest := Bytes → Bytes → Vector Byte 16

open List

def strRChr (text : Bytes) (c : Byte) : Option Nat :=
  (text.reverse.findIdx? (· = c)).map (text.length - 1 - ·)

variable (digest : Digest)

def doSign (strkey cleartext : Bytes) : Bytes :=
  (digest cleartext strkey).toList ++ cleartext ++ [ch '$']

def doCheck (strkey scrambledText : Bytes) : Bool × Bytes :=
  let effLength := (strRChr scrambledText (ch '$')).getD scrambledText.length
  if effLength ≤ 16 then (false, [])
  else
    let msg := (scrambledText.drop 16).take (effLength - 16)
    if (digest msg strkey).toList = scrambledText.take 16 then (true, msg)
    else (false, [])

theorem strRChr_append (text : Bytes) (c : Byte) : strRChr (text ++ [c]) c = some text.length := by
  simp [strRChr, findIdx?_cons]

theorem doCheck_doSign (strkey : Bytes) {cleartext : Bytes} (nonempty : cleartext ≠ []) :
    doCheck digest strkey (doSign digest strkey cleartext) = (true, cleartext) := by
  have length : (digest cleartext strkey).toList.length = 16 := Vector.length_toList
  have positive := length_pos_iff.mpr nonempty
  have signed : (doSign digest strkey cleartext).take 16 = (digest cleartext strkey).toList := by
    rw [doSign, append_assoc, take_left' length]
  have msg : (doSign digest strkey cleartext).drop 16 = cleartext ++ [ch '$'] := by
    rw [doSign, append_assoc, drop_left' length]
  have effLength : strRChr (doSign digest strkey cleartext) (ch '$') =
      some (16 + cleartext.length) := by
    rw [doSign, strRChr_append, length_append, length]
  have long : ¬ 16 + cleartext.length ≤ 16 := by omega
  simp only [doCheck, effLength, Option.getD_some, long, if_false, msg,
    signed, Nat.add_sub_cancel_left, take_left, if_true]

/-- A text is accepted with its own signature exactly when it is not empty: a
signature alone counts as too short. -/
theorem doCheck_doSign_iff (strkey cleartext : Bytes) :
    doCheck digest strkey (doSign digest strkey cleartext) = (true, cleartext) ↔
      cleartext ≠ [] := by
  constructor
  · rintro accepted rfl
    have effLength : strRChr (doSign digest strkey []) (ch '$') = some 16 := by
      rw [doSign, strRChr_append, length_append, Vector.length_toList]
      rfl
    rw [doCheck, effLength] at accepted
    cases accepted
  · exact doCheck_doSign digest strkey

theorem not_doCheck_doSign : ¬ ∀ (digest : Digest) (strkey cleartext : Bytes),
    doCheck digest strkey (doSign digest strkey cleartext) = (true, cleartext) := by
  intro accepts
  have empty := accepts (fun _ _ => Vector.replicate 16 0) [] []
  revert empty
  decide +kernel

/-! ## What is accepted -/

theorem strRChr_of_last {front tail : Bytes} {c : Byte} (last : c ∉ tail) :
    strRChr (front ++ c :: tail) c = some front.length := by
  have notThere : tail.reverse.findIdx? (· = c) = none := by
    simpa using fun other member => ne_of_mem_of_not_mem member last
  have first : (front ++ c :: tail).reverse.findIdx? (· = c) = some tail.length := by
    simp [findIdx?_append, notThere, findIdx?_cons]
  rw [strRChr, first]
  simp

theorem strRChr_eq_none {text : Bytes} {c : Byte} (absent : c ∉ text) : strRChr text c = none := by
  simpa [strRChr] using fun other member => ne_of_mem_of_not_mem member absent

theorem exists_last {text : Bytes} {c : Byte} (member : c ∈ text) :
    ∃ front tail, text = front ++ c :: tail ∧ c ∉ tail := by
  rcases eq_append_cons_of_mem (mem_reverse.mpr member) with ⟨tail, front, same, absent⟩
  refine ⟨front.reverse, tail.reverse, ?_, by simpa using absent⟩
  rw [← reverse_reverse text, same]
  simp

theorem doCheck_front {strkey front behind msg : Bytes}
    (effLength : (strRChr (front ++ behind) (ch '$')).getD (front ++ behind).length =
      front.length) :
    doCheck digest strkey (front ++ behind) = (true, msg) ↔
      msg ≠ [] ∧ front = (digest msg strkey).toList ++ msg := by
  have length : ∀ msg, (digest msg strkey).toList.length = 16 := fun _ => Vector.length_toList
  simp only [doCheck, effLength]
  by_cases short : front.length ≤ 16
  · rw [if_pos short]
    refine ⟨nofun, fun ⟨nonempty, signed⟩ => ?_⟩
    have positive := length_pos_iff.mpr nonempty
    rw [signed, length_append, length] at short
    omega
  · have rest : ((front ++ behind).drop 16).take (front.length - 16) = front.drop 16 := by
      rw [← drop_take, take_left]
    have long : 16 ≤ front.length := by omega
    rw [if_neg short, rest, take_append_of_le_length long]
    constructor
    · intro accepted
      split_ifs at accepted with signed
      · cases accepted
        refine ⟨?_, by rw [signed, take_append_drop]⟩
        rw [← length_pos_iff, length_drop]
        omega
      · cases accepted
    · rintro ⟨-, rfl⟩
      rw [drop_left' (length msg), take_left' (length msg), if_pos rfl]

/-- Accepted are the signed texts, with anything but a `$` behind the end
marker, or without the marker when there is no `$` at all. -/
theorem doCheck_iff (strkey scrambledText msg : Bytes) :
    doCheck digest strkey scrambledText = (true, msg) ↔ msg ≠ [] ∧
      (ch '$' ∉ scrambledText ∧ scrambledText = (digest msg strkey).toList ++ msg ∨
        ∃ tail, ch '$' ∉ tail ∧
          scrambledText = (digest msg strkey).toList ++ msg ++ ch '$' :: tail) := by
  by_cases marked : ch '$' ∈ scrambledText
  · rcases exists_last marked with ⟨front, tail, rfl, absent⟩
    rw [doCheck_front digest (by rw [strRChr_of_last absent]; rfl)]
    constructor
    · rintro ⟨nonempty, same⟩
      exact ⟨nonempty, .inr ⟨tail, absent, by rw [same]⟩⟩
    · rintro ⟨nonempty, ⟨unmarked, -⟩ | ⟨other, without, same⟩⟩
      · exact absurd marked unmarked
      · have places := congrArg (strRChr · (ch '$')) same
        simp only [strRChr_of_last absent, strRChr_of_last without, Option.some.injEq] at places
        exact ⟨nonempty, append_inj_left same places⟩
  · have whole : doCheck digest strkey (scrambledText ++ []) = (true, msg) ↔
        msg ≠ [] ∧ scrambledText = (digest msg strkey).toList ++ msg :=
      doCheck_front digest (by simp [strRChr_eq_none marked])
    rw [append_nil] at whole
    rw [whole]
    constructor
    · exact fun ⟨nonempty, same⟩ => ⟨nonempty, .inl ⟨marked, same⟩⟩
    · rintro ⟨nonempty, ⟨-, same⟩ | ⟨tail, -, rfl⟩⟩
      · exact ⟨nonempty, same⟩
      · simp at marked

end MD5Signer

namespace MD5Context

open List

abbrev Block := Fin 64 → Byte

/-- `sizeof(uint32)`: an `unsigned int` has 4 bytes, an `unsigned long` may
have 8. -/
def sizeofUint32 : Bool → Nat
  | true => 8
  | false => 4

end MD5Context

/-- `fBuf` is a value of any type; a number in `fBits` is one of `uint32`. -/
@[ext]
structure MD5Context (ω : Type) (wide : Bool) where
  fBuf : ω
  fBits0 : Nat
  fBits1 : Nat
  fIn : MD5Context.Block
  fBits0Lt : fBits0 < 2 ^ (8 * MD5Context.sizeofUint32 wide)
  fBits1Lt : fBits1 < 2 ^ (8 * MD5Context.sizeofUint32 wide)

namespace MD5Context

open List

def memcpy (fIn : Block) (at' : Nat) : Bytes → Block
  | [] => fIn
  | byte :: buf => memcpy (fun i => if i.val = at' then byte else fIn i) (at' + 1) buf

variable {ω : Type} (transform : ω → Block → ω) {wide : Bool}

/-- `Transform` reads 16 words of `fIn`, which has 64 bytes. -/
def process (wide : Bool) (data : ω × Block) : Option (ω × Block) :=
  if 16 * sizeofUint32 wide ≤ 64 then some (transform data.1 data.2, data.2) else none

/-- Whole blocks are processed at once, and the rest is buffered. -/
def blocks (wide : Bool) (data : ω × Block) (buf : Bytes) : Option (ω × Block) :=
  if 64 ≤ buf.length then
    (process transform wide (data.1, memcpy data.2 0 (buf.take 64))).bind
      fun data => blocks wide data (buf.drop 64)
  else some (data.1, memcpy data.2 0 buf)
termination_by buf.length
decreasing_by
  rw [length_drop]
  omega

/-- `Update` behind the bit count, with `t` bytes in the block. -/
def fill (wide : Bool) (data : ω × Block) (t : Nat) (buf : Bytes) : Option (ω × Block) :=
  if t ≠ 0 then
    if buf.length < 64 - t then some (data.1, memcpy data.2 t buf)
    else (process transform wide (data.1, memcpy data.2 t (buf.take (64 - t)))).bind
      fun data => blocks transform wide data (buf.drop (64 - t))
  else blocks transform wide data buf

def buffered (c : MD5Context ω wide) : Nat := c.fBits0 / 8 % 64

def carry (sum t : Nat) : Nat := if sum < t then 1 else 0

def counted (c : MD5Context ω wide) (len : Nat) (data : ω × Block) : MD5Context ω wide :=
  let low := (c.fBits0 + 8 * len) % 2 ^ (8 * sizeofUint32 wide)
  let high := c.fBits1 + carry low c.fBits0 + len / 2 ^ 29
  ⟨data.1, low, high % 2 ^ (8 * sizeofUint32 wide), data.2, Nat.mod_lt _ (Nat.two_pow_pos _),
    Nat.mod_lt _ (Nat.two_pow_pos _)⟩

def update (c : MD5Context ω wide) (buf : Bytes) : Option (MD5Context ω wide) :=
  (fill transform wide (c.fBuf, c.fIn) c.buffered buf).map (c.counted buf.length)

def wordBytes (wide : Bool) (word : Nat) : Bytes :=
  (range (sizeofUint32 wide)).map fun i => BitVec.ofNat 8 (word / 2 ^ (8 * i))

/-- Padding, the length and the last block. -/
def final (c : MD5Context ω wide) : Option ω :=
  let fIn := memcpy c.fIn c.buffered [0x80]
  let count := 64 - 1 - c.buffered
  let padded :=
    if count < 8 then
      (process transform wide
        (c.fBuf, memcpy fIn (c.buffered + 1) (replicate count 0))).map
          fun data => (data.1, memcpy data.2 0 (replicate 56 0))
    else some (c.fBuf, memcpy fIn (c.buffered + 1) (replicate (count - 8) 0))
  padded.bind fun data =>
    (process transform wide (data.1, memcpy data.2 (14 * sizeofUint32 wide)
      (wordBytes wide c.fBits0 ++ wordBytes wide c.fBits1))).map (·.1)

/-- One byte more in the block, which is processed when it is full. -/
def absorb (wide : Bool) (s : (ω × Block) × Nat) (byte : Byte) : Option ((ω × Block) × Nat) :=
  if s.2 = 63 then (process transform wide (s.1.1, memcpy s.1.2 s.2 [byte])).map (·, 0)
  else some ((s.1.1, memcpy s.1.2 s.2 [byte]), s.2 + 1)

section

variable (data : ω × Block)
include data

theorem foldlM_absorb {t : Nat} {buf : Bytes} (room : t + buf.length ≤ 64)
    (free : t < 64) :
    foldlM (absorb transform wide) (data, t) buf =
      if t + buf.length = 64 then
        (process transform wide (data.1, memcpy data.2 t buf)).map (·, 0)
      else some ((data.1, memcpy data.2 t buf), t + buf.length) := by
  induction buf generalizing data t with
  | nil =>
    rw [if_neg (by simp; omega)]
    rfl
  | cons byte buf ih =>
    rw [length_cons] at room ⊢
    rw [foldlM_cons, absorb]
    rcases Nat.eq_or_lt_of_le (Nat.le_of_lt_succ free) with rfl | less
    · have last : buf = [] := length_eq_zero_iff.mp (by omega)
      subst last
      simp [foldlM_nil]
    · rw [if_neg (by omega)]
      refine (ih _ (by omega) (by omega)).trans ?_
      rw [Nat.add_right_comm]
      rfl

theorem foldlM_first {t : Nat} {buf : Bytes} (free : t < 64)
    (full : 64 ≤ t + buf.length) :
    foldlM (absorb transform wide) (data, t) buf =
      (process transform wide (data.1, memcpy data.2 t (buf.take (64 - t)))).bind
        fun next => foldlM (absorb transform wide) (next, 0) (buf.drop (64 - t)) := by
  have length : t + (buf.take (64 - t)).length = 64 := by
    rw [length_take]
    omega
  have parts := congrArg (foldlM (absorb transform wide) (data, t))
    (take_append_drop (64 - t) buf)
  rw [← parts, foldlM_append, foldlM_absorb transform data (by omega) free, if_pos length]
  rcases process transform wide (data.1, memcpy data.2 t (buf.take (64 - t))) with _ | next
  · rfl
  · rfl

theorem foldlM_blocks (buf : Bytes) :
    foldlM (absorb transform wide) (data, 0) buf =
      (blocks transform wide data buf).map (·, buf.length % 64) := by
  fun_induction blocks transform wide data buf with
  | case1 data buf full ih =>
    rw [foldlM_first transform data (by omega) (by omega), Option.map_bind]
    congr 1
    funext next
    rw [ih next, length_drop, ← Nat.mod_eq_sub_mod full]
    rfl
  | case2 data buf part =>
    rw [foldlM_absorb transform data (by omega) (by omega), if_neg (by omega),
      Nat.mod_eq_of_lt (by omega), Nat.zero_add]
    rfl

theorem foldlM_fill {t : Nat} (free : t < 64) (buf : Bytes) :
    foldlM (absorb transform wide) (data, t) buf =
      (fill transform wide data t buf).map (·, (t + buf.length) % 64) := by
  rw [fill]
  split
  · split
    · rw [foldlM_absorb transform data (by omega) (by omega), if_neg (by omega),
        Nat.mod_eq_of_lt (by omega)]
      rfl
    · rw [foldlM_first transform data free (by omega), Option.map_bind]
      congr 1
      funext next
      have rest : (buf.drop (64 - t)).length % 64 = (t + buf.length) % 64 := by
        rw [length_drop]
        omega
      rw [foldlM_blocks, rest]
      rfl
  · next zero =>
    have none : t = 0 := by omega
    rw [none, Nat.zero_add, foldlM_blocks]

end

theorem buffered_lt (c : MD5Context ω wide) : c.buffered < 64 := Nat.mod_lt _ (by omega)

/-- With words of 4 bytes: the bytes are absorbed and the 64 bits count them. -/
structure After (c : MD5Context ω false) (bytes : Bytes) (last : MD5Context ω false) : Prop where
  data : foldlM (absorb transform false) ((c.fBuf, c.fIn), c.buffered) bytes =
    some ((last.fBuf, last.fIn), last.buffered)
  bits : last.fBits1 * 2 ^ 32 + last.fBits0 =
    (c.fBits1 * 2 ^ 32 + c.fBits0 + 8 * bytes.length) % 2 ^ 64

variable {transform}

theorem After.append {c next last : MD5Context ω false} {a b : Bytes}
    (first : After transform c a next) (second : After transform next b last) :
    After transform c (a ++ b) last := by
  have counted := first.bits
  have bits := second.bits
  constructor
  · rw [foldlM_append, first.data]
    exact second.data
  · rw [length_append]
    generalize 2 ^ 32 = m at bits counted ⊢
    omega

theorem After.unique {c last other : MD5Context ω false} {bytes : Bytes}
    (after : After transform c bytes last) (also : After transform c bytes other) :
    last = other := by
  have data := after.data.symm.trans also.data
  have bits := after.bits.trans also.bits.symm
  have low : last.fBits0 < 2 ^ 32 := last.fBits0Lt
  have low' : other.fBits0 < 2 ^ 32 := other.fBits0Lt
  injection data with data
  injection data with data
  injection data with fBuf fIn
  refine MD5Context.ext fBuf ?_ ?_ fIn <;> omega

variable (transform)

theorem absorbs (bytes : Bytes) (s : (ω × Block) × Nat) :
    ∃ last, foldlM (absorb transform false) s bytes = some last := by
  induction bytes generalizing s with
  | nil => exact ⟨s, rfl⟩
  | cons byte bytes ih =>
    rw [foldlM_cons, absorb]
    split
    · exact ih _
    · exact ih _

theorem update_after (c : MD5Context ω false) (buf : Bytes) :
    ∃ last, update transform c buf = some last ∧ After transform c buf last := by
  have same := @foldlM_fill ω transform false (c.fBuf, c.fIn) _ c.buffered_lt buf
  rcases absorbs transform buf ((c.fBuf, c.fIn), c.buffered) with ⟨s, absorbed⟩
  rcases filled : fill transform false (c.fBuf, c.fIn) c.buffered buf with _ | data
  · rw [filled, absorbed] at same
    cases same
  · have low : c.fBits0 < 2 ^ 32 := c.fBits0Lt
    have high : c.fBits1 < 2 ^ 32 := c.fBits1Lt
    refine ⟨c.counted buf.length data, congrArg (Option.map _) filled, ?_, ?_⟩
    · rw [same, filled]
      simp only [Option.map_some, buffered, counted, sizeofUint32, Nat.reduceMul]
      congr 2
      omega
    · simp only [counted, sizeofUint32, Nat.reduceMul]
      rw [carry]
      split <;> omega

theorem memcpy_append (fIn : Block) (at' : Nat) (a b : Bytes) :
    memcpy fIn at' (a ++ b) = memcpy (memcpy fIn at' a) (at' + a.length) b := by
  induction a generalizing fIn at' with
  | nil => rfl
  | cons byte a ih =>
    rw [cons_append, memcpy, ih, memcpy, length_cons, Nat.add_assoc, Nat.add_comm 1]

theorem fill_wide (data : ω × Block) {t : Nat} (free : t < 64) (buf : Bytes) :
    fill transform true data t buf =
      if t + buf.length < 64 then some (data.1, memcpy data.2 t buf) else none := by
  have same := @foldlM_fill ω transform true data t free buf
  split
  · rw [foldlM_absorb transform data (by omega) free, if_neg (by omega)] at same
    rcases found : fill transform true data t buf with _ | filled
    · rw [found] at same
      cases same
    · rw [found] at same
      injection same with same
      injection same with same
      rw [same]
  · rw [foldlM_first transform data free (by omega)] at same
    rcases found : fill transform true data t buf with _ | filled
    · rfl
    · rw [found] at same
      cases same

theorem update_wide (c : MD5Context ω true) (a b : Bytes) :
    (∃ last, update transform c (a ++ b) = some last ∧
        (update transform c a).bind (update transform · b) = some last) ↔
      c.buffered + a.length + b.length < 64 := by
  have whole : fill transform true (c.fBuf, c.fIn) c.buffered (a ++ b) = _ :=
    fill_wide transform _ c.buffered_lt (a ++ b)
  have first : fill transform true (c.fBuf, c.fIn) c.buffered a = _ :=
    fill_wide transform _ c.buffered_lt a
  rw [length_append, ← Nat.add_assoc] at whole
  constructor
  · rintro ⟨last, joined, _⟩
    by_contra full
    rw [update, whole, if_neg full] at joined
    cases joined
  · intro few
    rw [if_pos few] at whole
    rw [if_pos (by omega)] at first
    refine ⟨c.counted (a ++ b).length _, congrArg (Option.map _) whole, ?_⟩
    rw [update, first]
    have low : c.fBits0 < 2 ^ 64 := c.fBits0Lt
    have more : (c.fBits0 + 8 * a.length) % 2 ^ 64 / 8 % 64 = c.buffered + a.length := by
      simp only [buffered] at few ⊢
      omega
    have rest := fill_wide transform (c.fBuf, memcpy c.fIn c.buffered a)
      (Nat.lt_of_le_of_lt (Nat.le_add_right _ _) few) b
    rw [if_pos few, ← more] at rest
    refine (congrArg (Option.map _) rest).trans (congrArg some ?_)
    refine MD5Context.ext rfl ?_ ?_ ?_
    · simp only [counted, length_append, sizeofUint32, Nat.reduceMul]
      omega
    · simp only [counted, length_append, sizeofUint32, buffered, Nat.reduceMul] at few ⊢
      simp only [carry]
      rw [if_neg (by omega), if_neg (by omega), if_neg (by omega)]
      omega
    · simp only [counted, more, memcpy_append]

theorem final_narrow (c : MD5Context ω false) : ∃ digest, final transform c = some digest := by
  rw [final]
  split
  · exact ⟨_, rfl⟩
  · exact ⟨_, rfl⟩

theorem final_wide (c : MD5Context ω true) : final transform c = none :=
  Option.bind_fun_none _

def init (wide : Bool) (fBuf : ω) (fIn : Block) : MD5Context ω wide :=
  ⟨fBuf, 0, 0, fIn, Nat.two_pow_pos _, Nat.two_pow_pos _⟩

theorem updates_after (c : MD5Context ω false) (pieces : List Bytes) :
    ∃ last, foldlM (update transform) c pieces = some last ∧
      After transform c pieces.flatten last := by
  induction pieces generalizing c with
  | nil =>
    have low : c.fBits0 < 2 ^ 32 := c.fBits0Lt
    have high : c.fBits1 < 2 ^ 32 := c.fBits1Lt
    refine ⟨c, rfl, rfl, ?_⟩
    rw [flatten_nil, length_nil]
    omega
  | cons piece pieces ih =>
    rcases update_after transform c piece with ⟨next, updated, first⟩
    rcases ih next with ⟨last, rest, after⟩
    refine ⟨last, ?_, first.append after⟩
    rw [foldlM_cons, updated]
    exact rest

theorem flatten_bytes (message : Bytes) : (message.map ([·])).flatten = message := by
  induction message with
  | nil => rfl
  | cons byte message ih => exact congrArg (byte :: ·) ih

/-- Two updates are the one with the joined bytes exactly if `uint32` has four
bytes or no block gets full, and there is a digest for every cutting exactly if
it has four bytes.  With eight, `Transform` reads behind `fIn`. -/
theorem update_cutting_iff (wide : Bool) :
    (∀ (c : MD5Context ω wide) (a b : Bytes), a.length + b.length < 2 ^ 32 →
      ((∃ last, update transform c (a ++ b) = some last ∧
          (update transform c a).bind (update transform · b) = some last) ↔
        wide = false ∨ c.buffered + a.length + b.length < 64)) ∧
      ∀ (fBuf : ω) (fIn : Block) (message : Bytes),
        (∃ digest, ∀ pieces : List Bytes, pieces.flatten = message →
          (∀ piece ∈ pieces, piece.length < 2 ^ 32) →
          (foldlM (update transform) (init wide fBuf fIn) pieces).bind
            (final transform) = some digest) ↔ wide = false := by
  cases wide with
  | true =>
    constructor
    · intro c a b _
      simpa using update_wide transform c a b
    · intro fBuf fIn message
      refine iff_of_false ?_ nofun
      rintro ⟨digest, all⟩
      have bytes := all _ (flatten_bytes message) (by simp)
      rw [show final transform = fun _ => none from funext (final_wide transform),
        Option.bind_fun_none] at bytes
      cases bytes
  | false =>
    constructor
    · intro c a b _
      refine iff_of_true ?_ (.inl rfl)
      rcases update_after transform c (a ++ b) with ⟨last, joined, whole⟩
      rcases updates_after transform c [a, b] with ⟨other, updated, after⟩
      rw [show [a, b].flatten = a ++ b by simp] at after
      rw [whole.unique after] at joined
      exact ⟨other, joined, by simpa using updated⟩
    · intro fBuf fIn message
      refine iff_of_true ?_ rfl
      rcases updates_after transform (init false fBuf fIn) (message.map ([·])) with
        ⟨last, _, whole⟩
      rw [flatten_bytes] at whole
      rcases final_narrow transform last with ⟨digest, ended⟩
      refine ⟨digest, ?_⟩
      rintro pieces rfl _
      rcases updates_after transform (init false fBuf fIn) pieces with ⟨other, updated, after⟩
      rw [updated, Option.bind_some, after.unique whole, ended]

theorem not_update_cutting : ¬ ∀ (transform : Unit → Block → Unit) (wide : Bool)
    (c : MD5Context Unit wide) (a b : Bytes), a.length + b.length < 2 ^ 32 →
      ∃ last, update transform c (a ++ b) = some last ∧
        (update transform c a).bind (update transform · b) = some last := by
  intro all
  have full := all (fun _ _ => ()) true (init true () fun _ => 0) (replicate 64 0) [] (by decide)
  rw [update_wide] at full
  exact absurd full (by decide)

end MD5Context

end Coast.Security
