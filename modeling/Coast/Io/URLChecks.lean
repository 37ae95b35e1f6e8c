import Coast.Base.ResolvePath
import Coast.Base.StringParts
import Coast.Io.HTMLEntities
import Coast.Library.TurnLoop
import Mathlib.Data.List.GetD

/-!
# Checks of a URL

The checks that `HTTPProcessorWithChecks` makes of the path and of the
arguments of a URL, and decoding until nothing is left to decode.
-/

namespace Coast

open List Nat

def strcspn (s charSet : Bytes) : Nat :=
  (s.takeWhile fun c => c ≠ 0 && !(cstr charSet).contains c).length

def strspn (s charSet : Bytes) : Nat :=
  (s.takeWhile fun c => c ≠ 0 && (cstr charSet).contains c).length

def firstCharOf (s charSet : Bytes) : Option Nat :=
  if s.length ≤ strcspn s charSet then none else some (strcspn s charSet)

def lastCharOf (s charSet : Bytes) : Option Nat :=
  if strspn s charSet = 0 then none else some (strspn s charSet)

def containsCharAbove (s : Bytes) (highMark : Byte) (excludeSet : Bytes) : Option Nat :=
  s.findIdx? fun c => highMark < c && !excludeSet.contains c

theorem nulFree_of_firstCharOf {s charSet : Bytes}
    (notFound : firstCharOf s charSet = none) : NulFree s := by
  unfold firstCharOf at notFound
  split at notFound
  · rename_i long
    intro member
    have whole := ( takeWhile_prefix _).eq_of_length_le long
    have passes := takeWhile_eq_self_iff.mp whole 0 member
    rw [Bool.and_eq_true, decide_eq_true_eq] at passes
    exact passes.1 rfl
  · cases notFound

theorem drop_takeWhile {p : Byte → Bool} {s : Bytes} (short : (s.takeWhile p).length < s.length) :
    ∃ c rest, s.drop (s.takeWhile p).length = c :: rest ∧ p c = false := by
  induction s with
  | nil => exact absurd short (lt_irrefl 0)
  | cons c s ih =>
    cases passes : p c with
    | true =>
      rw [takeWhile_cons_of_pos passes, length_cons, length_cons] at short
      rw [takeWhile_cons_of_pos passes, length_cons, drop_succ_cons]
      exact ih (lt_of_succ_lt_succ short)
    | false =>
      have stops : ¬ p c = true := by
        rw [passes]
        exact Bool.false_ne_true
      rw [takeWhile_cons_of_neg stops]
      exact ⟨c, s, rfl, passes⟩

theorem firstCharOf_eq_some {s charSet : Bytes} {i : Nat} (found : firstCharOf s charSet = some i) :
    ∃ c rest, s.drop i = c :: rest ∧ (c = 0 ∨ c ∈ cstr charSet) := by
  unfold firstCharOf at found
  split at found
  · cases found
  · rename_i short
    cases found
    unfold strcspn at short ⊢
    rcases drop_takeWhile (Nat.lt_of_not_le short) with ⟨c, rest, isDrop, stops⟩
    refine ⟨c, rest, isDrop, ?_⟩
    rw [Bool.and_eq_false_iff, decide_eq_false_iff_not, not_not] at stops
    rcases stops with zero | member
    · exact .inl zero
    · right
      rw [Bool.not_eq_false'] at member
      exact contains_iff_mem.mp member

namespace URLUtils

def checkUrlArgEncoding (str override : Bytes) : Bool :=
  let base := lit "ABCDEFGHIJKLMNOPQRSTUVWXYZabcdefghijklmnopqrstuvwxyz" ++ lit "0123456789" ++
    (if override = [] then lit "%;/?:@&=$-_.+!*'()," else override)
  lastCharOf str base = some str.length || str.length = 0

def checkUrlPathContainsUnsafeChars (str overrideUnsafe overrideAscii : Bytes)
    (asciiExtended : Bool) : Bool :=
  let base :=
    if overrideUnsafe = [] then lit "<>\"#%\x7b|\x7d\\^~[]`"
    else overrideUnsafe
  let containsExtendedAscii := asciiExtended && (containsCharAbove str 127 overrideAscii).isSome
  (firstCharOf str base).isSome || containsExtendedAscii

def cleanUpUriPath (name : Bytes) : Bytes := SystemFile.resolvePath name

/-! ## Removing characters -/

/-- `ReplaceAt` of a part of the text itself that ends with it.  The bytes go
through `memcpy`, which is undefined when the two areas overlap. -/
def replaceAt (text : Bytes) (pos source : Nat) : Option Bytes :=
  if text.length - source = 0 then some text
  else if source < pos + (text.length - source) ∧ pos < text.length then none
  else some (text.take pos ++ text.drop source ++ text.drop (pos + (text.length - source)))

theorem firstCharOf_lt {s charSet : Bytes} {i : Nat} (found : firstCharOf s charSet = some i) :
    i < s.length := by
  unfold firstCharOf at found
  split at found
  · cases found
  · cases found
    omega

theorem trim_replaceAt {work text : Bytes} {pos : Nat} (inside : pos < work.length)
    (replaced : replaceAt work pos (pos + 1) = some text) :
    trim text (work.length - 1) = work.take pos ++ work.drop (pos + 1) := by
  have size : (work.take pos ++ work.drop (pos + 1)).length = work.length - 1 := by
    rw [length_append, length_take, length_drop]
    omega
  have last : ((work.length : Int) - 1).toNat = work.length - 1 := by omega
  unfold replaceAt at replaced
  split_ifs at replaced with end_ overlap
  · cases replaced
    have atEnd : work.length - 1 = pos := by omega
    rw [trim, if_pos (by omega), last, atEnd, drop_eq_nil_of_le (by omega), append_nil]
  · cases replaced
    rw [trim, if_pos, last, ← size, take_left]
    rw [length_append, size]
    omega

/-- One unwanted character after the other, as far as the copies do not overlap. -/
def removeUnwantedChars (badOnes work : Bytes) : Option Bytes :=
  match _ : firstCharOf work badOnes with
  | none => some work
  | some pos =>
    match replaced : replaceAt work pos (pos + 1) with
    | none => none
    | some text => removeUnwantedChars badOnes (trim text (work.length - 1))
termination_by work.length
decreasing_by
  have inside := firstCharOf_lt ‹firstCharOf work badOnes = some pos›
  rw [trim_replaceAt inside replaced, length_append, length_take, length_drop]
  omega

/-- What `FirstCharOf` passes over. -/
def kept (badOnes : Bytes) (c : Byte) : Bool := c ≠ 0 && !(cstr badOnes).contains c

theorem kept_before {badOnes work : Bytes} {pos : Nat}
    (found : firstCharOf work badOnes = some pos) : ∀ c ∈ work.take pos, kept badOnes c = true := by
  unfold firstCharOf at found
  split at found
  · cases found
  · cases found
    rw [strcspn, ← prefix_iff_eq_take.mp (List.takeWhile_prefix _)]
    exact fun c member => mem_takeWhile_imp member

/-- The loop gives the text without the characters that `FirstCharOf` finds,
unless one of them has two or more characters behind it. -/
theorem removeUnwantedChars_eq (badOnes work : Bytes) :
    removeUnwantedChars badOnes work =
      if ∀ c ∈ work.take (work.length - 2), kept badOnes c = true then
        some (work.filter (kept badOnes))
      else none := by
  fun_induction removeUnwantedChars badOnes work with
  | case1 work none =>
    have all : ∀ c ∈ work, kept badOnes c = true := by
      unfold firstCharOf at none
      split at none
      · rename_i long
        exact takeWhile_eq_self_iff.mp ((List.takeWhile_prefix _).eq_of_length_le long)
      · cases none
    rw [if_pos fun c member => all c (mem_of_mem_take member), filter_eq_self.mpr all]
  | case2 work pos found overlaps =>
    rcases firstCharOf_eq_some found with ⟨c, rest, behind, bad⟩
    have front : pos < work.length - 2 := by
      unfold replaceAt at overlaps
      split_ifs at overlaps with end_ overlap
      omega
    have removed : ¬ kept badOnes c = true := by
      rcases bad with rfl | member
      · exact Bool.false_ne_true
      · simp [kept, member]
    refine (if_neg fun all => removed (all c ?_)).symm
    have here : work[pos]? = some c := by
      rw [← head?_drop, behind, head?_cons]
    exact mem_of_getElem? ((getElem?_take_of_lt front).trans here)
  | case3 work pos found text replaced ih =>
    rcases firstCharOf_eq_some found with ⟨c, rest, behind, bad⟩
    have inside := firstCharOf_lt found
    have atEnd : work.length - 2 ≤ pos := by
      unfold replaceAt at replaced
      split_ifs at replaced with end_ overlap
      · omega
      · omega
    have removed : kept badOnes c = false := by
      rcases bad with rfl | member
      · rfl
      · simp [kept, member]
    have next : work.drop (pos + 1) = rest := by
      rw [← tail_drop, behind, tail_cons]
    have before := kept_before found
    have size : (work.take pos ++ rest).length = work.length - 1 := by
      rw [length_append, length_take, ← next, length_drop]
      omega
    rw [ih, trim_replaceAt inside replaced, next, if_pos, if_pos]
    · conv => rhs; rw [← take_append_drop pos work, behind]
      rw [filter_append, filter_append, filter_cons_of_neg (by rw [removed]; exact Bool.false_ne_true)]
    · exact fun c member => before c (take_subset_take_left work atEnd member)
    · intro c member
      rw [size, take_append_of_le_length (by rw [length_take]; omega)] at member
      exact before c (mem_of_mem_take member)

/-- Exactly the bad characters are removed when there is no NUL among the
others, which counts as one of them, no NUL among the bad ones hides one
behind it, and no character is removed that has two or more behind it: there
`memcpy` is called for overlapping areas. -/
theorem removeUnwantedChars_iff (instr badOnes : Bytes) :
    removeUnwantedChars badOnes instr = some (instr.filter (· ∉ badOnes)) ↔
      (0 ∈ instr → 0 ∈ badOnes) ∧ (∀ c ∈ instr, c ≠ 0 → c ∈ badOnes → c ∈ cstr badOnes) ∧
        ∀ c ∈ instr.take (instr.length - 2), c ∉ badOnes := by
  have shown : ∀ c, c ∈ cstr badOnes → c ∈ badOnes ∧ c ≠ 0 := fun c member =>
    ⟨takeWhile_subset _ member, by simpa using mem_takeWhile_imp member⟩
  have keeps : ∀ c, kept badOnes c = true ↔ c ≠ 0 ∧ c ∉ cstr badOnes := by
    intro c
    simp [kept]
  rw [removeUnwantedChars_eq]
  constructor
  · intro same
    split_ifs at same with front
    have alike : ∀ c ∈ instr, (c ≠ 0 ∧ c ∉ cstr badOnes ↔ c ∉ badOnes) := by
      intro c member
      have kept := congrArg (c ∈ ·) (Option.some.inj same)
      simpa [mem_filter, member, keeps] using kept
    refine ⟨fun nul => by_contra fun free => ((alike 0 nul).mpr free).1 rfl,
      fun c member other bad => by_contra fun hidden => (alike c member).mp ⟨other, hidden⟩ bad,
      fun c member => ?_⟩
    exact (alike c (mem_of_mem_take member)).mp ((keeps c).mp (front c member))
  · rintro ⟨nul, hidden, front⟩
    have alike : ∀ c ∈ instr, (kept badOnes c = true ↔ c ∉ badOnes) := by
      intro c member
      rw [keeps]
      constructor
      · exact fun kept bad => kept.2 (hidden c member kept.1 bad)
      · exact fun free => ⟨fun zero => free (zero ▸ nul (zero ▸ member)),
          fun seen => free (shown c seen).1⟩
    rw [if_pos fun c member => (alike c (mem_of_mem_take member)).mpr (front c member)]
    refine congrArg some (filter_congr fun c member => ?_)
    rw [Bool.eq_iff_iff, alike c member, decide_eq_true_eq]

theorem not_removeUnwantedChars : ¬ ∀ instr badOnes : Bytes,
    removeUnwantedChars badOnes instr = some (instr.filter (· ∉ badOnes)) := by
  intro removes
  have nul := (removeUnwantedChars_eq [] [0]).symm.trans (removes [0] [])
  exact absurd nul (by decide)

/-! ## Decoding until nothing is left to decode -/

/-- A character counts once, a `+` twice: decoding may put one in place of its
escape, or replace one. -/
def weight (s : Bytes) : Nat := s.length + s.count (ch '+')

theorem weight_append (first second : Bytes) :
    weight (first ++ second) = weight first + weight second := by
  unfold weight
  rw [length_append, count_append]
  omega

theorem weight_single (c : Byte) : weight [c] ≤ 2 := by
  have few : [c].count (ch '+') ≤ [c].length := count_le_length
  unfold weight
  rw [length_singleton] at few ⊢
  omega

theorem length_le_weight (s : Bytes) : s.length ≤ weight s := le_add_right _ _

theorem weight_drop {s : Bytes} {n : Nat} (le : n ≤ s.length) :
    weight (s.drop n) + n ≤ weight s := by
  have parts := weight_append (s.take n) (s.drop n)
  rw [take_append_drop] at parts
  have front := length_le_weight (s.take n)
  rw [length_take] at front
  omega

/-- A character that stays, or an escape for a lighter one. -/
inductive Turn (c : Byte) (str : Bytes) : DecodedTurn → Prop where
  | keeps : Turn c str ⟨[c], false, 0⟩
  | reads {turn : DecodedTurn} (moved : turn.moved ≤ str.length)
      (lighter : weight turn.appended ≤ turn.moved) : Turn c str turn

theorem Turn.weight {c : Byte} {str rest : Bytes} {turn : DecodedTurn} (isTurn : Turn c str turn)
    (behind : rest = str.drop turn.moved ∨
      URLUtils.weight rest < URLUtils.weight (str.drop turn.moved)) :
    turn.appended ++ rest = c :: str ∨
      URLUtils.weight (turn.appended ++ rest) < URLUtils.weight (c :: str) := by
  have heavy := weight_append [c] str
  rw [singleton_append] at heavy
  cases isTurn with
  | keeps =>
    rcases behind with same | lighter
    · exact .inl (congrArg (c :: ·) same)
    · right
      rw [weight_append, heavy]
      exact Nat.add_lt_add_left lighter _
  | reads moved lighter =>
    right
    have after := weight_drop moved
    have one := length_le_weight [c]
    rw [length_singleton] at one
    rw [weight_append]
    rcases behind with same | less
    · rw [same]
      omega
    · omega

theorem decodeSpecialChars_turn (str : Bytes) (c : Byte) {offset : Nat} (some' : 0 < offset) :
    Turn c str ⟨[(decodeSpecialChars (c :: str) c offset).1], false,
      (decodeSpecialChars (c :: str) c offset).2⟩ := by
  unfold decodeSpecialChars
  dsimp only
  split
  · rename_i special
    rw [Bool.and_eq_true, decide_eq_true_eq] at special
    rcases special with ⟨inside, special⟩
    rw [length_cons] at inside
    apply Turn.reads (le_of_lt_succ inside)
    have notPlus : (c :: str).getD offset 0 ≠ ch '+' := by
      intro isPlus
      rw [isPlus] at special
      exact absurd special (by decide)
    have none' : [(c :: str).getD offset 0].count (ch '+') = 0 := by
      apply count_eq_zero_of_not_mem
      rw [mem_singleton]
      exact Ne.symm notPlus
    show weight [(c :: str).getD offset 0] ≤ offset
    unfold weight
    rw [none', length_singleton]
    omega
  · exact .keeps

theorem urlDecodeTurn_turn (c : Byte) (str : Bytes) : Turn c str (urlDecodeTurn (c :: str)) := by
  unfold urlDecodeTurn
  dsimp only [getD_cons_zero]
  split
  · split
    · split
      · rename_i digits
        simp only [Bool.and_eq_true, decide_eq_true_eq, length_cons] at digits
        split
        · apply Turn.reads (by simp only; omega)
          have light := weight_single (twoHexAsChar ((c :: str).getD 4 0) ((c :: str).getD 5 0))
          simp only
          omega
        · exact Turn.reads (by simp only; omega) (zero_le 5)
      · exact decodeSpecialChars_turn str c (by decide)
    · split
      · rename_i digits
        simp only [Bool.and_eq_true, decide_eq_true_eq, length_cons] at digits
        exact Turn.reads (by simp only; omega) (weight_single _)
      · exact decodeSpecialChars_turn str c (by decide)
  · exact .keeps

theorem urlDecodeLoop_weight (s : Bytes) :
    (urlDecodeLoop s).1 = s ∨ weight (urlDecodeLoop s).1 < weight s := by
  induction s using urlDecodeLoop.induct with
  | case1 => exact .inl (by rw [urlDecodeLoop_nil])
  | case2 c str turn _ _ _ ih =>
    rw [urlDecodeLoop_cons]
    exact (urlDecodeTurn_turn c str).weight ih

theorem convert_weight (s : Bytes) : convert s = s ∨ weight (convert s) < weight s := by
  induction s with
  | nil => exact .inl rfl
  | cons c s ih =>
    have before := weight_append [c] s
    have after := weight_append [blankForPlus c] (convert s)
    rw [singleton_append] at before after
    change blankForPlus c :: convert s = _ ∨ weight (blankForPlus c :: convert s) < _
    by_cases plus : c = ch '+'
    · right
      have blank : weight [blankForPlus c] = 1 := by
        rw [plus]
        decide
      have twice : weight [c] = 2 := by
        rw [plus]
        decide
      rcases ih with same | less
      · rw [same] at after ⊢
        omega
      · omega
    · have kept : blankForPlus c = c := if_neg plus
      rw [kept] at after ⊢
      rcases ih with same | less
      · exact .inl (congrArg (c :: ·) same)
      · exact .inr (by omega)

theorem urlDecodeChecked_weight (s : Bytes) (replacePlusByBlank : Bool) :
    (urlDecodeChecked s replacePlusByBlank).1 = s ∨
      weight (urlDecodeChecked s replacePlusByBlank).1 < weight s := by
  have converted : (if replacePlusByBlank then convert s else s) = s ∨
      weight (if replacePlusByBlank then convert s else s) < weight s := by
    cases replacePlusByBlank with
    | true => exact convert_weight s
    | false => exact .inl rfl
  unfold urlDecodeChecked
  dsimp only
  generalize (if replacePlusByBlank then convert s else s) = str at converted
  split
  · exact converted
  · have decoded := urlDecodeLoop_weight str
    rcases converted with same | less
    · rwa [same] at decoded ⊢
    · rcases decoded with same | lighter
      · rw [same]
        exact .inr less
      · exact .inr (lighter.trans less)

/-- Decoding is repeated until nothing changes any more. -/
def exhaustiveUrlDecodeLoop (replacePlusByBlank : Bool)
    (previous : Bytes) (status : URLCheckStatus) : Bytes × URLCheckStatus :=
  let current := urlDecodeChecked previous replacePlusByBlank
  let status := if current.2 = .eSuspiciousChar then .eSuspiciousChar else status
  if _same : current.1 = previous then (current.1, status)
  else exhaustiveUrlDecodeLoop replacePlusByBlank current.1 status
termination_by weight previous
decreasing_by
  exact (urlDecodeChecked_weight previous replacePlusByBlank).resolve_left _same

def exhaustiveUrlDecode (instr : Bytes) (replacePlusByBlank : Bool) : Bytes × URLCheckStatus :=
  if instr = [] then ([], .eOk)
  else exhaustiveUrlDecodeLoop replacePlusByBlank instr .eOk

/-- The loop for a decoding step that makes the text lighter or leaves it:
`ExhaustiveHTMLDecode`, and `ExhaustiveUrlDecode` without a status. -/
def exhaustiveDecodeLoop {decode : Bytes → Bytes}
    (lighter : ∀ s, decode s = s ∨ weight (decode s) < weight s) (previous : Bytes) : Bytes :=
  if _same : decode previous = previous then decode previous
  else exhaustiveDecodeLoop lighter (decode previous)
termination_by weight previous
decreasing_by exact (lighter previous).resolve_left _same

def exhaustiveDecode {decode : Bytes → Bytes}
    (lighter : ∀ s, decode s = s ∨ weight (decode s) < weight s) (instr : Bytes) : Bytes :=
  if instr = [] then [] else exhaustiveDecodeLoop lighter instr

theorem urlDecode_weight (s : Bytes) (replacePlusByBlank : Bool) :
    urlDecode s replacePlusByBlank = s ∨ weight (urlDecode s replacePlusByBlank) < weight s :=
  urlDecodeChecked_weight s replacePlusByBlank

def exhaustiveUrlDecodePlain (instr : Bytes) (replacePlusByBlank : Bool) : Bytes :=
  @exhaustiveDecode (fun s => urlDecode s replacePlusByBlank)
    (fun s => urlDecode_weight s replacePlusByBlank) instr

theorem weight_le (s : Bytes) : weight s ≤ 2 * s.length := by
  have few : s.count (ch '+') ≤ s.length := count_le_length
  unfold weight
  omega

theorem decodeReference_length (str : Bytes) (delta : Nat) :
    (decodeReference str delta).length ≤ 1 := by
  have decimal : (extractDecimal str delta).length ≤ 1 := by
    rw [extractDecimal]
    split
    · exact le_refl 1
    · exact zero_le 1
  have hex : (extractHex str delta).length ≤ 1 := le_refl 1
  have one : [twoHexAsChar (ch '0') (str.getD 3 0)].length ≤ 1 := le_refl 1
  have none' : ([] : Bytes).length ≤ 1 := zero_le 1
  have either : ∀ {p : Prop} [Decidable p] {a b : Bytes}, a.length ≤ 1 →
      b.length ≤ 1 → (if p then a else b).length ≤ 1 := by
    intro p _ a b first second
    split
    · exact first
    · exact second
  have digits : (if isDecimalReference str delta = true then
      extractDecimal str delta else []).length ≤ 1 := either decimal none'
  rw [decodeReference]
  exact either (either hex none') (either (either (either hex none') digits)
    (either (either hex digits) (either (either one digits) (either digits none'))))

theorem strChr_reference {c : Byte} {str : Bytes} {delta : Nat}
    (ends : strChr (c :: str) (ch ';') = some delta)
    (first : c = ch '&') (second : str.getD 0 0 = ch '#') :
    2 ≤ delta ∧ delta ≤ str.length := by
  rw [strChr, findIdx?_eq_some_iff_getElem] at ends
  rcases ends with ⟨inside, isEnd, -⟩
  rw [length_cons] at inside
  refine ⟨?_, le_of_lt_succ inside⟩
  by_contra early
  obtain rfl | rfl : delta = 0 ∨ delta = 1 := by omega
  · rw [getElem_cons_zero, decide_eq_true_eq, first] at isEnd
    exact absurd isEnd (by decide)
  · rw [getElem_cons_succ, decide_eq_true_eq] at isEnd
    rw [getD_eq_getElem _ _ (lt_of_succ_lt_succ inside), isEnd] at second
    exact absurd second (by decide)

theorem decodeSpecialHTMLChars_turn (c : Byte) (str : Bytes) :
    Turn c str ⟨(decodeSpecialHTMLChars (c :: str)).1, false,
      (decodeSpecialHTMLChars (c :: str)).2⟩ := by
  rw [decodeSpecialHTMLChars]
  split
  · exact .keeps
  · rename_i delta ends
    split
    · exact .keeps
    · rename_i reference
      simp only [getD_cons_zero, getD_cons_succ, ne_eq,
        Bool.or_eq_true, decide_eq_true_eq, not_or, not_not] at reference
      rcases reference with ⟨⟨first, second⟩, -⟩
      rcases strChr_reference ends first second with ⟨behind, inside⟩
      have few := decodeReference_length (c :: str) delta
      have light := weight_le (decodeReference (c :: str) delta)
      have lighter : weight (decodeReference (c :: str) delta) ≤ delta := by
        omega
      exact Turn.reads inside lighter

theorem htmlDecodeLoop_weight (s : Bytes) :
    htmlDecodeLoop s = s ∨ weight (htmlDecodeLoop s) < weight s := by
  induction s using htmlDecodeLoop.induct with
  | case1 => exact .inl (by rw [htmlDecodeLoop])
  | case2 c str appended moved turn ih =>
    have isTurn := decodeSpecialHTMLChars_turn c str
    rw [htmlDecodeLoop_cons]
    rw [turn] at isTurn ⊢
    exact isTurn.weight ih

theorem htmlDecode_weight (s : Bytes) : htmlDecode s = s ∨ weight (htmlDecode s) < weight s := by
  rw [htmlDecode_eq]
  exact htmlDecodeLoop_weight s

def exhaustiveHTMLDecode (instr : Bytes) : Bytes := exhaustiveDecode htmlDecode_weight instr

section Exhaustive

open TurnLoop

variable {decode : Bytes → Bytes} (lighter : ∀ s, decode s = s ∨ weight (decode s) < weight s)

theorem exhaustiveDecodeLoop_same {previous : Bytes} (same : decode previous = previous) :
    exhaustiveDecodeLoop lighter previous = decode previous := by
  rw [exhaustiveDecodeLoop, dif_pos same]

theorem exhaustiveDecodeLoop_changed {previous : Bytes} (changed : decode previous ≠ previous) :
    exhaustiveDecodeLoop lighter previous = exhaustiveDecodeLoop lighter (decode previous) := by
  rw [exhaustiveDecodeLoop, dif_neg changed]

theorem exhaustiveDecodeLoop_ends (previous : Bytes) :
    Ends (untilSame decode) previous (exhaustiveDecodeLoop lighter previous) := by
  induction previous using exhaustiveDecodeLoop.induct lighter with
  | case1 previous same =>
    rw [exhaustiveDecodeLoop_same lighter same, same]
    exact untilSame_done same
  | case2 previous changed ih =>
    rw [exhaustiveDecodeLoop_changed lighter changed]
    exact untilSame_again changed ih

theorem exhaustiveDecode_ends (empty : decode [] = []) (instr : Bytes) :
    Ends (untilSame decode) instr (exhaustiveDecode lighter instr) := by
  rw [exhaustiveDecode]
  split
  · rename_i isEmpty
    rw [isEmpty]
    exact untilSame_done empty
  · exact exhaustiveDecodeLoop_ends lighter instr

theorem exhaustiveUrlDecodeLoop_eq (replacePlusByBlank : Bool)
    (previous : Bytes) (status : URLCheckStatus) :
    (exhaustiveUrlDecodeLoop replacePlusByBlank previous status).1 =
      @exhaustiveDecodeLoop (fun s => urlDecode s replacePlusByBlank)
        (fun s => urlDecode_weight s replacePlusByBlank) previous := by
  induction previous, status using
      exhaustiveUrlDecodeLoop.induct replacePlusByBlank with
  | case1 previous status current same =>
    rw [exhaustiveUrlDecodeLoop, dif_pos same]
    exact (@exhaustiveDecodeLoop_same
      (fun s => urlDecode s replacePlusByBlank) _ previous same).symm
  | case2 previous status current newStatus changed ih =>
    rw [exhaustiveUrlDecodeLoop, dif_neg changed]
    exact ih.trans (@exhaustiveDecodeLoop_changed
      (fun s => urlDecode s replacePlusByBlank) _ previous changed).symm

theorem exhaustiveUrlDecode_eq (instr : Bytes) (replacePlusByBlank : Bool) :
    (exhaustiveUrlDecode instr replacePlusByBlank).1 =
      exhaustiveUrlDecodePlain instr replacePlusByBlank := by
  by_cases empty : instr = []
  · rw [exhaustiveUrlDecode, exhaustiveUrlDecodePlain, exhaustiveDecode, if_pos empty, if_pos empty]
  · rw [exhaustiveUrlDecode, exhaustiveUrlDecodePlain, exhaustiveDecode, if_neg empty, if_neg empty]
    exact exhaustiveUrlDecodeLoop_eq replacePlusByBlank instr .eOk

theorem exhaustiveUrlDecodePlain_ends (s : Bytes) (replacePlusByBlank : Bool) :
    Ends (untilSame fun t => urlDecode t replacePlusByBlank) s
      (exhaustiveUrlDecodePlain s replacePlusByBlank) := by
  apply exhaustiveDecode_ends
  cases replacePlusByBlank with
  | true => decide
  | false => decide

theorem exhaustiveHTMLDecode_ends (s : Bytes) :
    Ends (untilSame htmlDecode) s (exhaustiveHTMLDecode s) :=
  exhaustiveDecode_ends _ (by decide) s

/-- Both loops end, in a text that decoding once more does not change. -/
theorem exhaustiveDecode_settles (s : Bytes) :
    (∀ replacePlusByBlank, Ends (untilSame fun t => urlDecode t replacePlusByBlank) s
        (exhaustiveUrlDecode s replacePlusByBlank).1 ∧
      urlDecode (exhaustiveUrlDecode s replacePlusByBlank).1
          replacePlusByBlank =
        (exhaustiveUrlDecode s replacePlusByBlank).1 ∧
      exhaustiveUrlDecodePlain s replacePlusByBlank =
        (exhaustiveUrlDecode s replacePlusByBlank).1) ∧
    Ends (untilSame htmlDecode) s (exhaustiveHTMLDecode s) ∧
    htmlDecode (exhaustiveHTMLDecode s) = exhaustiveHTMLDecode s := by
  constructor
  · intro replacePlusByBlank
    have ends := exhaustiveUrlDecodePlain_ends s replacePlusByBlank
    rw [exhaustiveUrlDecode_eq]
    exact ⟨ends, ends.settled.1, rfl⟩
  · have ends := exhaustiveHTMLDecode_ends s
    exact ⟨ends, ends.settled.1⟩

end Exhaustive

end URLUtils

end Coast
