import Coast.Base.StringParts
import Mathlib.Algebra.Ring.Nat

/-!
# Tokens and padded output of a string

`StringTokenizer` moves a pointer over a C string and `StringTokenizer2` an
index over a String.  Both step over a delimiter behind the token, and over the
end of the text when there is none.  `operator<<` counts the padding down in a
`size_t`.
-/

namespace Coast

open List

/-- The text is the pieces, each with a delimiter behind it, and the rest. -/
inductive Pieces (delimits : Byte → Bool) : List Bytes → Bytes → Bytes → Prop
  | rest (text : Bytes) : Pieces delimits [] text text
  | more (piece : Bytes) (c : Byte) (isDelimiter : delimits c = true) {pieces : List Bytes}
      {rest text : Bytes} (later : Pieces delimits pieces rest text) :
      Pieces delimits (piece :: pieces) rest (piece ++ c :: text)

/-- The tokens joined with the delimiters between them, and the remainder; a
last token that ends the text has no delimiter behind it. -/
def Joined (delimits : Byte → Bool) (tokens : List Bytes) (remainder text : Bytes) : Prop :=
  Pieces delimits tokens remainder text ∨
    (remainder = [] ∧ ∃ front last, tokens = front ++ [last] ∧ Pieces delimits front last text)

def Reached (delimits : Byte → Bool) (text : Bytes) (tokens : List Bytes) (pos : Nat) : Prop :=
  (pos ≤ text.length ∧ Pieces delimits tokens (text.drop pos) text) ∨ (pos = text.length + 1 ∧
      ∃ front last, tokens = front ++ [last] ∧ Pieces delimits front last text)

section

variable {delimits : Byte → Bool} {tokens : List Bytes} {text : Bytes} {pos : Nat}

theorem Pieces.snoc {token rest : Bytes} {c : Byte} (isDelimiter : delimits c = true)
    (pieces : Pieces delimits tokens (token ++ c :: rest) text) :
    Pieces delimits (tokens ++ [token]) rest text := by
  generalize behind : token ++ c :: rest = left at pieces
  induction pieces with
  | rest text =>
    rw [← behind]
    exact .more token c isDelimiter (.rest rest)
  | more piece d isToo later ih => exact .more piece d isToo (ih behind)

theorem Reached.joined (reached : Reached delimits text tokens pos) :
    Joined delimits tokens (text.drop pos) text := by
  rcases reached with ⟨_, pieces⟩ | ⟨behind, last⟩
  · exact Or.inl pieces
  · exact Or.inr ⟨drop_eq_nil_of_le (by omega), last⟩

def tokenAt (delimits : Byte → Bool) (text : Bytes) (pos : Nat) : Bytes :=
  (text.drop pos).takeWhile fun c => !delimits c

theorem Reached.next (inside : pos ≤ text.length)
    (pieces : Pieces delimits tokens (text.drop pos) text) :
    Reached delimits text (tokens ++ [tokenAt delimits text pos])
      (pos + (tokenAt delimits text pos).length + 1) := by
  have parts : tokenAt delimits text pos ++ (text.drop pos).dropWhile (fun c => !delimits c) =
      text.drop pos := takeWhile_append_dropWhile
  have stops := head?_dropWhile_not (fun c => !delimits c) (text.drop pos)
  cases rest : (text.drop pos).dropWhile fun c => !delimits c with
  | nil =>
    rw [rest, append_nil] at parts
    refine Or.inr ⟨?_, tokens, _, rfl, parts.symm ▸ pieces⟩
    rw [parts, length_drop]
    omega
  | cons c behind =>
    rw [rest] at parts stops
    rw [← parts] at pieces
    have isDelimiter : delimits c = true := by simpa using stops
    have left : text.drop (pos + (tokenAt delimits text pos).length + 1) = behind := by
      rw [Nat.add_assoc, ← drop_drop, ← parts, ← drop_drop, drop_left]
      rfl
    have lengths := congrArg List.length parts
    rw [length_append, length_cons, length_drop] at lengths
    refine Or.inl ⟨by omega, ?_⟩
    rw [left]
    exact pieces.snoc isDelimiter

end

def collect {σ : Type} (next : σ → Option (Option Bytes × σ)) : Nat → σ → Option (List Bytes × σ)
  | 0, this => some ([], this)
  | calls + 1, this =>
    (next this).bind fun (token, this) =>
      (collect next calls this).map fun (tokens, this) => (token.toList ++ tokens, this)

theorem collect_keeps {σ : Type} {next : σ → Option (Option Bytes × σ)}
    {Inv : List Bytes → σ → Prop}
    (step : ∀ tokens this, Inv tokens this →
      ∃ token after, next this = some (token, after) ∧ Inv (tokens ++ token.toList) after)
    (calls : Nat) {tokens : List Bytes} {this : σ} (inv : Inv tokens this) :
    ∃ more after, collect next calls this = some (more, after) ∧ Inv (tokens ++ more) after := by
  induction calls generalizing tokens this with
  | zero => exact ⟨[], this, rfl, by rwa [append_nil]⟩
  | succ calls ih =>
    rcases step tokens this inv with ⟨token, middle, returns, inv⟩
    rcases ih inv with ⟨more, after, rest, inv⟩
    refine ⟨token.toList ++ more, after, ?_, by rwa [append_assoc] at inv⟩
    rw [collect, returns, Option.bind_some]
    dsimp only
    rw [rest]
    rfl

/-- A text and how far it has been cut. -/
structure StringTokenizer where
  fString : Bytes
  /-- The pointer, as a distance from the beginning of the text. -/
  fTokEnd : Nat
  fDelimiter : Byte
  deriving DecidableEq

namespace StringTokenizer

def create (s : Bytes) (delimiter : Byte) : StringTokenizer := ⟨s, 0, delimiter⟩

def memory (this : StringTokenizer) : Bytes := this.fString ++ [0]

def scan (fDelimiter : Byte) : Bytes → Option Nat
  | [] => none
  | c :: memory =>
    if c ≠ 0 && c ≠ fDelimiter then (scan fDelimiter memory).map (· + 1) else some 0

/-- The text up to the next delimiter, or up to a NUL if there is none. -/
def nextToken (this : StringTokenizer) : Option (Option Bytes × StringTokenizer) :=
  if 0 < this.fString.length && this.fTokEnd ≤ this.fString.length then
    let tokStart := this.memory.drop this.fTokEnd
    (scan this.fDelimiter tokStart).map fun n =>
      (some (if tokStart[n]? = some this.fDelimiter then tokStart.take n else cstr tokStart),
        { this with fTokEnd := this.fTokEnd + n + 1 })
  else some (none, this)

/-- What is behind the last token, with its delimiter or without. -/
def getRemainder (this : StringTokenizer) (boIncludeDelim : Bool) : Option Bytes :=
  if boIncludeDelim then
    let tokStart := this.fTokEnd - 1
    if tokStart < this.memory.length then some (cstr (this.memory.drop tokStart)) else none
  else
    this.memory[this.fTokEnd]?.map fun c =>
      if c ≠ 0 && this.fTokEnd ≤ this.fString.length then cstr (this.memory.drop this.fTokEnd)
      else []

variable {this : StringTokenizer} {tokens : List Bytes}

def delimits (this : StringTokenizer) (c : Byte) : Bool := c = this.fDelimiter

theorem scan_text (fDelimiter : Byte) {text : Bytes} (nulFree : NulFree text) :
    scan fDelimiter (text ++ [0]) =
      some (text.takeWhile fun c => !decide (c = fDelimiter)).length := by
  induction text with
  | nil => rfl
  | cons c text ih =>
    rcases not_or.mp (mem_cons.not.mp nulFree) with ⟨notNul, behind⟩
    rw [cons_append, scan, ih behind]
    by_cases stops : c = fDelimiter
    · simp [stops]
    · rw [decide_eq_true (Ne.symm notNul), decide_eq_true stops]
      simp [stops]

theorem token_text (fDelimiter : Byte) {text : Bytes} (nulFree : NulFree text) {n : Nat}
    (ends : n = (text.takeWhile fun c => !decide (c = fDelimiter)).length) :
    (if (text ++ [0])[n]? = some fDelimiter then (text ++ [0]).take n else cstr (text ++ [0])) =
      text.takeWhile fun c => !decide (c = fDelimiter) := by
  subst ends
  split
  · have front := ( takeWhile_prefix fun c => !decide (c = fDelimiter)).trans
      (prefix_append text [0])
    exact (prefix_iff_eq_take.mp front).symm
  · rename_i noDelimiter
    have parts : (text.takeWhile fun c => !decide (c = fDelimiter)) ++
        text.dropWhile (fun c => !decide (c = fDelimiter)) = text := takeWhile_append_dropWhile
    have stops := head?_dropWhile_not (fun c => !decide (c = fDelimiter)) text
    rw [cstr_append_of_nulFree nulFree, show cstr [0] = [] from rfl, append_nil]
    cases rest : text.dropWhile fun c => !decide (c = fDelimiter) with
    | nil =>
      rw [rest, append_nil] at parts
      exact parts.symm
    | cons c behind =>
      rw [rest] at parts stops
      generalize (text.takeWhile fun c => !decide (c = fDelimiter)) = word at parts noDelimiter
      subst parts
      refine absurd ?_ noDelimiter
      simpa using stops

theorem nextToken_inside (nulFree : NulFree this.fString) (some' : 0 < this.fString.length)
    (inside : this.fTokEnd ≤ this.fString.length) :
    this.nextToken = some (some (tokenAt this.delimits this.fString this.fTokEnd),
      { this with
        fTokEnd := this.fTokEnd + (tokenAt this.delimits this.fString this.fTokEnd).length + 1 }) := by
  have behind : this.memory.drop this.fTokEnd = this.fString.drop this.fTokEnd ++ [0] :=
    drop_append_of_le_length inside
  have free : NulFree (this.fString.drop this.fTokEnd) := fun member =>
    nulFree (mem_of_mem_drop member)
  rw [nextToken, if_pos (by simp [some', inside]), behind]
  dsimp only
  rw [scan_text this.fDelimiter free, Option.map_some, token_text this.fDelimiter free rfl]
  rfl

def After (s : Bytes) (delimiter : Byte) (tokens : List Bytes) (this : StringTokenizer) : Prop :=
  this.fString = s ∧ this.fDelimiter = delimiter ∧
    Reached this.delimits this.fString tokens this.fTokEnd

theorem nextToken_after {s : Bytes} (nulFree : NulFree s) (delimiter : Byte)
    (tokens : List Bytes) (this : StringTokenizer) (reached : After s delimiter tokens this) :
    ∃ token after, this.nextToken = some (token, after) ∧
      After s delimiter (tokens ++ token.toList) after := by
  rcases reached with ⟨rfl, rfl, reached⟩
  by_cases inside : 0 < this.fString.length ∧ this.fTokEnd ≤ this.fString.length
  · rcases reached with ⟨_, pieces⟩ | ⟨behind, _⟩
    · exact ⟨_, _, nextToken_inside nulFree inside.1 inside.2, rfl, rfl,
        Reached.next inside.2 pieces⟩
    · omega
  · refine ⟨none, this, ?_, rfl, rfl, (append_nil tokens).symm ▸ reached⟩
    rw [nextToken, if_neg (by simpa using inside)]

/-- The remainder can be asked for and is what follows the tokens: none when
there is no further token. -/
def Reconstructs (this : StringTokenizer) (tokens : List Bytes) : Prop :=
  ∃ remainder, this.getRemainder false = some remainder ∧
    Joined this.delimits tokens remainder this.fString ∧
    (this.nextToken = some (none, this) → remainder = [])

/-- The tokens are reconstructed as long as the tokenizer has not stepped over
the end of the text: from there on `GetRemainder` reads behind the NUL. -/
theorem reconstructs_iff (nulFree : NulFree this.fString)
    (reached : Reached this.delimits this.fString tokens this.fTokEnd) :
    Reconstructs this tokens ↔ this.fTokEnd ≤ this.fString.length := by
  have length : this.memory.length = this.fString.length + 1 := length_append
  constructor
  · rintro ⟨remainder, read, -⟩
    by_contra outside
    rw [getRemainder, if_neg Bool.false_ne_true, getElem?_eq_none (by omega)] at read
    cases read
  · intro inside
    have behind : this.memory.drop this.fTokEnd = this.fString.drop this.fTokEnd ++ [0] :=
      drop_append_of_le_length inside
    have free : NulFree (this.fString.drop this.fTokEnd) := fun member =>
      nulFree (mem_of_mem_drop member)
    have read : this.getRemainder false = some (this.fString.drop this.fTokEnd) := by
      rw [getRemainder, if_neg Bool.false_ne_true, ← head?_drop, behind,
        cstr_append_of_nulFree free]
      cases left : this.fString.drop this.fTokEnd with
      | nil => rfl
      | cons c rest =>
        have named : c ≠ 0 := fun isNul => free (left ▸ isNul ▸ mem_cons_self)
        have reads : (decide (c ≠ 0) && decide (this.fTokEnd ≤ this.fString.length)) = true := by
          rw [decide_eq_true named, decide_eq_true inside]
          rfl
        change Option.map _ (some c) = _
        rw [Option.map_some, reads, if_pos rfl, show cstr [0] = [] from rfl, append_nil]
    refine ⟨_, read, reached.joined, fun done => ?_⟩
    by_cases some' : 0 < this.fString.length
    · rw [nextToken_inside nulFree some' inside] at done
      cases done
    · exact drop_eq_nil_of_le (by omega)

end StringTokenizer

/-! ## A set of delimiters -/

structure StringTokenizer2 where
  fString : Bytes
  fDelimiters : Bytes
  fPos : Nat

namespace StringTokenizer2

def create (s delimiters : Bytes) : StringTokenizer2 := ⟨s, delimiters, 0⟩

def delimits (this : StringTokenizer2) (c : Byte) : Bool := c = 0 || c ∈ cstr this.fDelimiters

def hasMoreTokens (this : StringTokenizer2) (start stop : Nat) : Bool × Nat :=
  (start < this.fString.length,
    stop + ((this.fString.drop stop).takeWhile fun c => !this.delimits c).length)

def nextToken (this : StringTokenizer2) : Option Bytes × StringTokenizer2 :=
  let (more, stop) := this.hasMoreTokens this.fPos this.fPos
  if more then
    (some (subStringFrom this.fString this.fPos ((stop : Int) - this.fPos)),
      { this with fPos := stop + 1 })
  else (none, this)

def getRemainder (this : StringTokenizer2) (boIncludeDelim : Bool) : Bytes :=
  if boIncludeDelim then subStringFrom this.fString (this.fPos - 1 : Nat) (-1)
  else if this.fPos < this.fString.length then subStringFrom this.fString this.fPos (-1)
  else []

variable {this : StringTokenizer2} {tokens : List Bytes}

theorem nextToken_inside (inside : this.fPos < this.fString.length) :
    this.nextToken = (some (tokenAt this.delimits this.fString this.fPos),
      { this with
        fPos := this.fPos + (tokenAt this.delimits this.fString this.fPos).length + 1 }) := by
  have front := takeWhile_prefix (l := this.fString.drop this.fPos) fun c => !this.delimits c
  have fits := front.length_le
  rw [length_drop] at fits
  rw [nextToken, hasMoreTokens, decide_eq_true inside]
  dsimp only
  rw [if_pos rfl, Int.natCast_add, Int.add_comm, Int.add_sub_cancel,
    subStringFrom_part (by omega), ← prefix_iff_eq_take.mp front]
  rfl

theorem nextToken_outside (outside : ¬this.fPos < this.fString.length) :
    this.nextToken = (none, this) := by
  rw [nextToken, hasMoreTokens, decide_eq_false outside]
  rfl

def After (s delimiters : Bytes) (tokens : List Bytes) (this : StringTokenizer2) : Prop :=
  this.fString = s ∧ this.fDelimiters = delimiters ∧
    Reached this.delimits this.fString tokens this.fPos

theorem nextToken_after (s delimiters : Bytes) (tokens : List Bytes) (this : StringTokenizer2)
    (reached : After s delimiters tokens this) :
    ∃ token after, some this.nextToken = some (token, after) ∧
      After s delimiters (tokens ++ token.toList) after := by
  rcases reached with ⟨rfl, rfl, reached⟩
  by_cases inside : this.fPos < this.fString.length
  · rcases reached with ⟨_, pieces⟩ | ⟨behind, _⟩
    · exact ⟨_, _, congrArg some (nextToken_inside inside), rfl, rfl,
        Reached.next (Nat.le_of_lt inside) pieces⟩
    · omega
  · exact ⟨none, this, congrArg some (nextToken_outside inside), rfl, rfl,
      (append_nil tokens).symm ▸ reached⟩

/-- The remainder is what follows the tokens: none when there is no further
token. -/
def Reconstructs (this : StringTokenizer2) (tokens : List Bytes) : Prop :=
  Joined this.delimits tokens (this.getRemainder false) this.fString ∧
    (this.nextToken = (none, this) → this.getRemainder false = [])

theorem reconstructs (reached : Reached this.delimits this.fString tokens this.fPos) :
    Reconstructs this tokens := by
  have rest : this.getRemainder false = this.fString.drop this.fPos := by
    rw [getRemainder, if_neg Bool.false_ne_true, subStringFrom_rest]
    split
    · rfl
    · exact (drop_eq_nil_of_le (by omega)).symm
  refine ⟨rest ▸ reached.joined, fun done => ?_⟩
  rw [rest]
  by_cases inside : this.fPos < this.fString.length
  · rw [nextToken_inside inside] at done
    cases done
  · exact drop_eq_nil_of_le (Nat.le_of_not_lt inside)

end StringTokenizer2

theorem reached_start (delimits : Byte → Bool) (text : Bytes) : Reached delimits text [] 0 :=
  Or.inl ⟨Nat.zero_le _, .rest text⟩

/-- After any number of calls the tokens and the remainder make up the text,
for a `StringTokenizer` exactly as long as it has not stepped over the end. -/
theorem tokens_reconstruct_iff {s : Bytes} (nulFree : NulFree s) (delimiter : Byte)
    (delimiters : Bytes) (calls : Nat) :
    (∃ tokens this,
      collect StringTokenizer.nextToken calls (.create s delimiter) = some (tokens, this) ∧
      this.fString = s ∧ (this.Reconstructs tokens ↔ this.fTokEnd ≤ s.length)) ∧
    ∃ tokens this, collect (fun this : StringTokenizer2 => some this.nextToken) calls
        (.create s delimiters) = some (tokens, this) ∧
      this.fString = s ∧ this.Reconstructs tokens := by
  constructor
  · have start : StringTokenizer.After s delimiter [] (.create s delimiter) :=
      ⟨rfl, rfl, reached_start _ s⟩
    rcases collect_keeps (StringTokenizer.nextToken_after nulFree delimiter) calls start with
      ⟨tokens, this, returns, same, -, reached⟩
    subst same
    exact ⟨tokens, this, returns, rfl, StringTokenizer.reconstructs_iff nulFree reached⟩
  · have start : StringTokenizer2.After s delimiters [] (.create s delimiters) :=
      ⟨rfl, rfl, reached_start _ s⟩
    rcases collect_keeps (StringTokenizer2.nextToken_after s delimiters) calls start with
      ⟨tokens, this, returns, same, -, reached⟩
    exact ⟨tokens, this, returns, same, StringTokenizer2.reconstructs reached⟩

theorem tokens_reconstruct_iff_comma :
    (∃ tokens this,
      collect StringTokenizer.nextToken 2 (.create (lit "a,") (ch ',')) = some (tokens, this) ∧
      this.fString = lit "a," ∧ (this.Reconstructs tokens ↔ this.fTokEnd ≤ (lit "a,").length)) ∧
    ∃ tokens this, collect (fun this : StringTokenizer2 => some this.nextToken) 2
        (.create (lit "a,") (lit ";,")) = some (tokens, this) ∧
      this.fString = lit "a," ∧ this.Reconstructs tokens :=
  tokens_reconstruct_iff (by decide) (ch ',') (lit ";,") 2

/-- After its only token the pointer is behind the NUL. -/
theorem not_tokens_reconstruct : ¬∃ tokens this,
    collect StringTokenizer.nextToken 1 (.create (lit "a") (ch ',')) = some (tokens, this) ∧
    this.Reconstructs tokens := by
  rintro ⟨tokens, this, returns, remainder, read, -⟩
  have stepped : collect StringTokenizer.nextToken 1 (.create (lit "a") (ch ',')) =
      some ([lit "a"], ⟨lit "a", 2, ch ','⟩) := by decide +kernel
  rw [stepped] at returns
  cases returns
  cases read

/-- What `operator<<` asks the stream for. -/
structure OutputFormat where
  width : Int64
  fill : Byte
  left : Bool

def padLoop (fill : Byte) : Nat → UInt64 → Bytes → Option Bytes
  | 0, _, _ => none
  | fuel + 1, padlen, written =>
    let padlen := padlen - 1
    if 0 ≤ padlen then padLoop fill fuel padlen (written ++ [fill]) else some written

def writeString (fuel : Nat) (os : OutputFormat) (s : Bytes) : Option Bytes :=
  let len := UInt64.ofNat s.length
  let width := os.width.toUInt64
  let written := if os.left then s else []
  (if width ≠ 0 && len < width then padLoop os.fill fuel (width - len) written
    else some written).map fun written => if os.left then written else written ++ s

def padded (os : OutputFormat) (s : Bytes) : Bytes :=
  let padding := List.replicate (os.width.toInt.toNat - s.length) os.fill
  if os.left then s ++ padding else padding ++ s

theorem padLoop_never (fill : Byte) (fuel : Nat) (padlen : UInt64) (written : Bytes) :
    padLoop fill fuel padlen written = none := by
  induction fuel generalizing padlen written with
  | zero => rfl
  | succ fuel ih =>
    have more : 0 ≤ padlen - 1 := UInt64.le_iff_toNat_le.mpr (Nat.zero_le _)
    rw [padLoop, if_pos more]
    exact ih _ _

theorem toUInt64_cases (width : Int64) :
    (0 ≤ width.toInt ∧ width.toInt = width.toUInt64.toNat) ∨
      (width.toInt < 0 ∧ 2 ^ 63 ≤ width.toUInt64.toNat) := by
  rw [Int64.toInt, BitVec.toInt_eq_toNat_cond]
  change (_ ∧ _ = (width.toBitVec.toNat : Int)) ∨ (_ ∧ 2 ^ 63 ≤ width.toBitVec.toNat)
  have bound : width.toBitVec.toNat < 2 ^ 64 := width.toBitVec.isLt
  split <;> omega

/-- The padded text is written exactly when there is nothing to pad: otherwise
the loop does not end. -/
theorem writeString_padded_iff (os : OutputFormat) {s : Bytes} (fits : s.length < 2 ^ 63) :
    (∃ fuel, writeString fuel os s = some (padded os s)) ↔
      0 ≤ os.width.toInt ∧ os.width.toInt ≤ s.length := by
  have size : (UInt64.ofNat s.length).toNat = s.length := by
    rw [UInt64.toNat_ofNat']
    omega
  have cases' := toUInt64_cases os.width
  by_cases pads : s.length < os.width.toUInt64.toNat
  · have positive : os.width.toUInt64 ≠ 0 := by
      intro zero
      rw [zero] at pads
      exact Nat.not_lt_zero _ pads
    have less : UInt64.ofNat s.length < os.width.toUInt64 := by
      rw [UInt64.lt_iff_toNat_lt, size]
      exact pads
    constructor
    · rintro ⟨fuel, written⟩
      rw [writeString, decide_eq_true positive, decide_eq_true less, Bool.and_self, if_pos rfl,
        padLoop_never] at written
      cases written
    · omega
  · have less : ¬UInt64.ofNat s.length < os.width.toUInt64 := by
      rw [UInt64.lt_iff_toNat_lt, size]
      exact pads
    have none' : os.width.toInt.toNat - s.length = 0 := by omega
    refine iff_of_true ⟨0, ?_⟩ (by omega)
    rw [writeString, padded, decide_eq_false less, Bool.and_false, if_neg Bool.false_ne_true,
      none', Option.map_some]
    cases os.left with
    | true => exact congrArg some (append_nil s).symm
    | false => rfl

theorem writeString_padded_iff_two :
    (∃ fuel, writeString fuel ⟨2, ch '.', false⟩ (lit "ab") =
      some (padded ⟨2, ch '.', false⟩ (lit "ab"))) ↔
      0 ≤ (2 : Int64).toInt ∧ (2 : Int64).toInt ≤ (lit "ab").length :=
  writeString_padded_iff ⟨2, ch '.', false⟩ (by decide)

theorem not_writeString_padded : ¬∃ fuel, writeString fuel ⟨3, ch '.', false⟩ (lit "ab") =
    some (padded ⟨3, ch '.', false⟩ (lit "ab")) := by
  rintro ⟨fuel, written⟩
  rw [writeString, if_pos (by decide), padLoop_never] at written
  cases written

end Coast
