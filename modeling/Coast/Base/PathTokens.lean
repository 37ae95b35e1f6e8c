import Coast.Base.LookupSteps

/-!
# The tokens of a path

A path is written as keys and indices, each behind its delimiter but for a
key at the beginning.  The lookup reads one token in a turn, and what it has
read completely was written in this way.
-/

namespace Coast

open PartialSteps List Option

/-- A token of a path as it is written. -/
inductive PathToken where
  | key (name : Bytes)
  | index (digits : Bytes)
  deriving DecidableEq, Repr

/-- Delimiters that are told apart, from the digits and by `IFAHash`, which
compares an `unsigned char` with a `char`. -/
structure Delimiters (delim indexdelim : Byte) : Prop where
  slotNotNul : delim ≠ 0
  indexNotNul : indexdelim ≠ 0
  different : delim ≠ indexdelim
  slotStops : isHashStop delim delim = true
  indexStops : isHashStop indexdelim indexdelim = true
  slotNoDigit : isdigit delim = false
  indexNoDigit : isdigit indexdelim = false

namespace PathToken

variable (delim indexdelim : Byte)

def text : PathToken → Bytes
  | key name => delim :: name
  | index digits => indexdelim :: digits

def Proper : PathToken → Prop
  | key name =>
    name ≠ [] ∧ NulFree name ∧ delim ∉ name ∧ indexdelim ∉ name
  | index digits => digits ≠ [] ∧ ∀ c ∈ digits, isdigit c = true

def scanned : PathToken → Bytes → LookupStep
  | key name, more => .key (name ++ more) name.length (keyHash name)
  | index digits, _ => .index (lookupNumber digits)

end PathToken

section

variable (delim indexdelim : Byte)

def tokensText (tokens : List PathToken) : Bytes := tokens.flatMap (PathToken.text delim indexdelim)

def joinTokens : List PathToken → Bytes
  | .key name :: tokens => name ++ tokensText delim indexdelim tokens
  | tokens => tokensText delim indexdelim tokens

def scannedTokens : List PathToken → List LookupStep
  | [] => []
  | token :: tokens =>
    token.scanned (tokensText delim indexdelim tokens) :: scannedTokens tokens

end

variable {delim indexdelim : Byte}

/-! ## One turn of the lookup -/

theorem endsToken_tokensText (tokens : List PathToken) :
    endsToken delim indexdelim (tokensText delim indexdelim tokens) = true := by
  cases tokens with
  | nil => rfl
  | cons token tokens =>
    cases token with
    | key name =>
      change (decide _ || decide (delim = delim)) = true
      rw [decide_eq_true rfl, Bool.or_true]
    | index digits =>
      change (decide (indexdelim = indexdelim) || decide _) = true
      rw [decide_eq_true rfl, Bool.true_or]

theorem endsToken_other {c : Byte} (text : Bytes) (notSlot : c ≠ delim)
    (notIndex : c ≠ indexdelim) :
    endsToken delim indexdelim (c :: text) = false := by
  change (decide (c = indexdelim) || decide (c = delim)) = false
  rw [decide_eq_false notIndex, decide_eq_false notSlot, Bool.false_or]

variable {text : Bytes}

theorem endsToken_cases (ends : endsToken delim indexdelim text = true) :
    text = [] ∨ ∃ rest, text = delim :: rest ∨ text = indexdelim :: rest := by
  cases text with
  | nil => exact .inl rfl
  | cons c text =>
    change (decide (c = indexdelim) || decide (c = delim)) = true at ends
    rw [Bool.or_eq_true, decide_eq_true_iff, decide_eq_true_iff] at ends
    rcases ends with rfl | rfl
    · exact .inr ⟨text, .inr rfl⟩
    · exact .inr ⟨text, .inl rfl⟩

def inHashWord (delim indexdelim c : Byte) : Bool :=
  c ≠ 0 && !isHashStop delim c && !isHashStop indexdelim c

theorem inHashWord_iff (delims : Delimiters delim indexdelim) (c : Byte) :
    inHashWord delim indexdelim c = true ↔ c ≠ 0 ∧ c ≠ delim ∧ c ≠ indexdelim := by
  constructor
  · intro inside
    rw [inHashWord, Bool.and_eq_true, Bool.and_eq_true, Bool.not_eq_true',
      Bool.not_eq_true', decide_eq_true_iff] at inside
    refine ⟨inside.1.1, fun same => ?_, fun same => ?_⟩
    · rw [same, delims.slotStops] at inside
      exact Bool.noConfusion inside.1.2
    · rw [same, delims.indexStops] at inside
      exact Bool.noConfusion inside.2
  · rintro ⟨notNul, notSlot, notIndex⟩
    rw [inHashWord, decide_eq_true notNul, isHashStop_of_ne notSlot, isHashStop_of_ne notIndex]
    rfl

variable {more : Bytes}

section

variable (delims : Delimiters delim indexdelim)
include delims

theorem hashWord_name {name : Bytes} (nulFree : NulFree name) (noSlot : delim ∉ name)
    (noIndex : indexdelim ∉ name) (ends : endsToken delim indexdelim more = true) :
    hashWord (name ++ more) delim indexdelim = name := by
  have passes : ∀ c ∈ name, inHashWord delim indexdelim c = true :=
    fun c member => (inHashWord_iff delims c).mpr
      ⟨fun same => nulFree (same ▸ member), fun same => noSlot (same ▸ member),
        fun same => noIndex (same ▸ member)⟩
  have word : hashWord (name ++ more) delim indexdelim =
      name ++ more.takeWhile (inHashWord delim indexdelim) :=
    takeWhile_append_of_pos passes
  have stops : more.takeWhile (inHashWord delim indexdelim) = [] := by
    rcases endsToken_cases ends with rfl | ⟨rest, rfl | rfl⟩
    · rfl
    · refine takeWhile_cons_of_neg fun inside => ?_
      exact ((inHashWord_iff delims delim).mp inside).2.1 rfl
    · refine takeWhile_cons_of_neg fun inside => ?_
      exact ((inHashWord_iff delims indexdelim).mp inside).2.2 rfl
  rw [word, stops, append_nil]

theorem scanStep_keyToken {name : Bytes} (proper : (PathToken.key name).Proper delim indexdelim)
    (ends : endsToken delim indexdelim more = true) :
    scanStep delim indexdelim (name ++ more) = some ((PathToken.key name).scanned more, more) ∧
      scanStep delim indexdelim (delim :: (name ++ more)) =
        some ((PathToken.key name).scanned more, more) := by
  rcases proper with ⟨nonempty, nulFree, noSlot, noIndex⟩
  have word := hashWord_name delims nulFree noSlot noIndex ends
  cases name with
  | nil => exact absurd rfl nonempty
  | cons c rest =>
    have notSlot : c ≠ delim := fun same => noSlot (same ▸ mem_cons_self)
    have notIndex : c ≠ indexdelim := fun same => noIndex (same ▸ mem_cons_self)
    constructor
    · rw [cons_append, scanStep, if_neg notIndex,
        decide_eq_false notSlot, Bool.false_and, if_neg Bool.false_ne_true]
      simp only [if_neg notSlot, ifaHash_eq, ← cons_append, word, drop_left]
      rfl
    · rw [scanStep, if_neg delims.different, cons_append,
        endsToken_other (rest ++ more) notSlot notIndex, Bool.and_false, if_neg Bool.false_ne_true]
      simp only [if_true, ifaHash_eq, ← cons_append, word, drop_left]
      rfl

theorem not_delimiter_of_isdigit
    {c : Byte} (digit : isdigit c = true) : c ≠ delim ∧ c ≠ indexdelim := by
  constructor
  · rintro rfl
    rw [delims.slotNoDigit] at digit
    exact Bool.false_ne_true digit
  · rintro rfl
    rw [delims.indexNoDigit] at digit
    exact Bool.false_ne_true digit

theorem digits_append {digits : Bytes} (all : ∀ c ∈ digits, isdigit c = true)
    (ends : endsToken delim indexdelim more = true) :
    (digits ++ more).takeWhile isdigit = digits ∧ (digits ++ more).dropWhile isdigit = more := by
  rcases endsToken_cases ends with rfl | ⟨rest, rfl | rfl⟩
  · rw [append_nil]
    exact ⟨takeWhile_eq_self_iff.mpr all, dropWhile_eq_nil_iff.mpr all⟩
  · exact takeWhile_append_stop delims.slotNoDigit all rest
  · exact takeWhile_append_stop delims.indexNoDigit all rest

theorem scanStep_indexToken {digits : Bytes}
    (proper : (PathToken.index digits).Proper delim indexdelim)
    (ends : endsToken delim indexdelim more = true) :
    scanStep delim indexdelim (indexdelim :: (digits ++ more)) =
      some ((PathToken.index digits).scanned more, more) := by
  rcases proper with ⟨nonempty, all⟩
  have split := digits_append delims all ends
  have begins : endsToken delim indexdelim (digits ++ more) = false := by
    cases digits with
    | nil => exact absurd rfl nonempty
    | cons c digits =>
      have other := not_delimiter_of_isdigit delims (all c mem_cons_self)
      exact endsToken_other (digits ++ more) other.1 other.2
  rw [scanStep, if_pos rfl, begins, if_neg Bool.false_ne_true]
  simp only [split.1, split.2, ends, if_true]
  rfl

theorem scanStep_token {token : PathToken} (proper : token.Proper delim indexdelim)
    (ends : endsToken delim indexdelim more = true) :
    scanStep delim indexdelim (token.text delim indexdelim ++ more) =
      some (token.scanned more, more) := by
  cases token with
  | key name => exact (scanStep_keyToken delims proper ends).2
  | index digits => exact scanStep_indexToken delims proper ends

theorem hashWord_split (nulFree : NulFree text) (begins : endsToken delim indexdelim text = false) :
    (PathToken.key (hashWord text delim indexdelim)).Proper delim
        indexdelim ∧
      endsToken delim indexdelim
        (text.drop (hashWord text delim indexdelim).length) = true ∧
      hashWord text delim indexdelim ++
        text.drop (hashWord text delim indexdelim).length = text := by
  have inside : ∀ c ∈ hashWord text delim indexdelim,
      c ≠ 0 ∧ c ≠ delim ∧ c ≠ indexdelim := fun c member =>
    (inHashWord_iff delims c).mp (mem_takeWhile_imp member)
  have whole : hashWord text delim indexdelim ++
      text.dropWhile (inHashWord delim indexdelim) = text :=
    takeWhile_append_dropWhile
  have rest : text.drop (hashWord text delim indexdelim).length =
      text.dropWhile (inHashWord delim indexdelim) := by
    calc text.drop (hashWord text delim indexdelim).length
        = (hashWord text delim indexdelim ++ text.dropWhile (inHashWord delim indexdelim)).drop
              (hashWord text delim indexdelim).length := by rw [whole]
      _ = text.dropWhile (inHashWord delim indexdelim) := drop_left
  rw [rest]
  refine ⟨?_, ?_, whole⟩
  · refine ⟨fun empty => ?_, fun member => (inside 0 member).1 rfl,
      fun member => (inside delim member).2.1 rfl,
      fun member => (inside indexdelim member).2.2 rfl⟩
    cases text with
    | nil => exact absurd begins Bool.noConfusion
    | cons c text =>
      change (decide (c = indexdelim) || decide (c = delim)) = false at begins
      rw [Bool.or_eq_false_iff, decide_eq_false_iff_not, decide_eq_false_iff_not] at begins
      have notNul : c ≠ 0 := fun same =>
        nulFree (same ▸ mem_cons_self)
      have first : hashWord (c :: text) delim indexdelim = c :: hashWord text delim indexdelim :=
        takeWhile_cons_of_pos ((inHashWord_iff delims c).mpr ⟨notNul, begins.2, begins.1⟩)
      rw [first] at empty
      cases empty
  · cases left : text.dropWhile (inHashWord delim indexdelim) with
    | nil => rfl
    | cons c more =>
      have stops : inHashWord delim indexdelim c = false := by
        have head := head?_dropWhile_not (inHashWord delim indexdelim) text
        rw [left] at head
        exact head
      have member : c ∈ text := (dropWhile_suffix _).subset (left ▸ mem_cons_self)
      have notNul : c ≠ 0 := fun same => nulFree (same ▸ member)
      by_contra other
      rw [Bool.not_eq_true] at other
      change (decide (c = indexdelim) || decide (c = delim)) = false at other
      rw [Bool.or_eq_false_iff, decide_eq_false_iff_not, decide_eq_false_iff_not] at other
      rw [(inHashWord_iff delims c).mpr ⟨notNul, other.2, other.1⟩] at stops
      exact Bool.noConfusion stops

theorem scanStep_tokenOf {rest : Bytes} {step : LookupStep} (nulFree : NulFree text)
    (scanned : scanStep delim indexdelim text = some (step, rest)) :
    ∃ token : PathToken, token.Proper delim indexdelim ∧
      step = token.scanned rest ∧ endsToken delim indexdelim rest = true ∧
      (text = token.text delim indexdelim ++ rest ∨
        ∃ name, token = .key name ∧ text = name ++ rest) := by
  cases text with
  | nil => cases scanned
  | cons c text =>
    rw [scanStep] at scanned
    by_cases isIndex : c = indexdelim
    · rw [if_pos isIndex] at scanned
      cases begins : endsToken delim indexdelim text with
      | true =>
        rw [begins, if_pos rfl] at scanned
        cases scanned
      | false =>
        rw [begins, if_neg Bool.false_ne_true] at scanned
        dsimp only at scanned
        cases ends : endsToken delim indexdelim (text.dropWhile isdigit) with
        | false =>
          rw [ends, if_neg Bool.false_ne_true] at scanned
          cases scanned
        | true =>
          rw [ends, if_pos rfl] at scanned
          cases scanned
          refine ⟨.index (text.takeWhile isdigit), ⟨fun none' => ?_,
            fun d member => mem_takeWhile_imp member⟩, rfl, ends,
            .inl ?_⟩
          · have all : text.dropWhile isdigit = text := by
              have whole := @takeWhile_append_dropWhile _ isdigit text
              rw [none'] at whole
              exact whole
            rw [all, begins] at ends
            exact Bool.false_ne_true ends
          · rw [isIndex]
            exact congrArg (indexdelim :: ·) takeWhile_append_dropWhile.symm
    · rw [if_neg isIndex] at scanned
      by_cases isSlot : c = delim
      · subst isSlot
        cases begins : endsToken c indexdelim text with
        | true =>
          rw [begins, decide_eq_true rfl, Bool.and_true, if_pos rfl] at scanned
          cases scanned
        | false =>
          rw [begins, Bool.and_false, if_neg Bool.false_ne_true] at scanned
          simp only [if_true, ifaHash_eq] at scanned
          cases scanned
          have free : NulFree text := fun member =>
            nulFree (mem_cons_of_mem c member)
          rcases hashWord_split delims free begins with ⟨proper, ends, whole⟩
          refine ⟨.key _, proper, ?_, ends, .inl ?_⟩
          · rw [PathToken.scanned, whole]
          · exact congrArg (c :: ·) whole.symm
      · rw [decide_eq_false isSlot, Bool.false_and, if_neg Bool.false_ne_true] at scanned
        simp only [if_neg isSlot, ifaHash_eq] at scanned
        cases scanned
        have begins := endsToken_other text isSlot isIndex
        rcases hashWord_split delims nulFree begins with ⟨proper, ends, whole⟩
        refine ⟨.key _, proper, ?_, ends, .inr ⟨_, rfl, whole.symm⟩⟩
        rw [PathToken.scanned, whole]

end

/-! ## The whole path -/

variable {tokens : List PathToken}

theorem tokensText_eq_nil : tokensText delim indexdelim tokens = [] ↔ tokens = [] := by
  cases tokens with
  | nil => exact ⟨fun _ => rfl, fun _ => rfl⟩
  | cons token tokens =>
    refine ⟨fun empty => ?_, fun empty => ?_⟩
    · cases token with
      | key name => cases empty
      | index digits => cases empty
    · cases empty

theorem lookupSteps_tokensText (delims : Delimiters delim indexdelim) (some' : tokens ≠ [])
    (proper : ∀ token ∈ tokens, token.Proper delim indexdelim)
    {fuel : Nat} (enough : tokens.length ≤ fuel) :
    lookupSteps delim indexdelim fuel (tokensText delim indexdelim tokens) =
      some (scannedTokens delim indexdelim tokens) := by
  induction tokens generalizing fuel with
  | nil => exact absurd rfl some'
  | cons token tokens ih =>
    cases fuel with
    | zero => cases enough
    | succ fuel =>
      have scan := scanStep_token delims (proper token mem_cons_self)
        (@endsToken_tokensText delim indexdelim tokens)
      change lookupSteps _ _ _ (token.text delim indexdelim ++
        tokensText delim indexdelim tokens) = _
      rw [lookupSteps, scan]
      dsimp only
      by_cases last : tokens = []
      · rw [if_pos (tokensText_eq_nil.mpr last), last]
        rfl
      · rw [if_neg fun empty => last (tokensText_eq_nil.mp empty),
          ih last (forall_mem_cons.mp proper).2 (Nat.le_of_succ_le_succ enough)]
        rfl

theorem lookupSteps_joinTokens (delims : Delimiters delim indexdelim) (some' : tokens ≠ [])
    (proper : ∀ token ∈ tokens, token.Proper delim indexdelim)
    {fuel : Nat} (enough : tokens.length ≤ fuel) :
    lookupSteps delim indexdelim fuel (joinTokens delim indexdelim tokens) =
      some (scannedTokens delim indexdelim tokens) := by
  have whole := lookupSteps_tokensText delims some' proper enough
  cases tokens with
  | nil => exact absurd rfl some'
  | cons token tokens =>
    cases token with
    | index digits => exact whole
    | key name =>
      cases fuel with
      | zero => cases enough
      | succ fuel =>
        -- the first turn reads the same with and without a delimiter
        have scans := scanStep_keyToken delims (proper _ mem_cons_self)
          (@endsToken_tokensText delim indexdelim tokens)
        change lookupSteps _ _ _ (delim :: (name ++
          tokensText delim indexdelim tokens)) = _ at whole
        rw [lookupSteps, scans.2] at whole
        rw [joinTokens, lookupSteps, scans.1]
        exact whole

theorem joinTokens_of_endsToken (proper : ∀ token ∈ tokens, token.Proper delim indexdelim)
    (ends : endsToken delim indexdelim
      (joinTokens delim indexdelim tokens) = true) :
    joinTokens delim indexdelim tokens = tokensText delim indexdelim tokens := by
  cases tokens with
  | nil => rfl
  | cons token tokens =>
    cases token with
    | index digits => rfl
    | key name =>
      rcases proper _ mem_cons_self with ⟨some', -, noSlot, noIndex⟩
      cases name with
      | nil => exact absurd rfl some'
      | cons c name =>
        have notSlot : c ≠ delim := fun same => noSlot (same ▸ mem_cons_self)
        have notIndex : c ≠ indexdelim := fun same => noIndex (same ▸ mem_cons_self)
        rw [joinTokens, cons_append, endsToken_other _ notSlot notIndex] at ends
        exact absurd ends Bool.false_ne_true

section

variable (delims : Delimiters delim indexdelim)
include delims

theorem tokens_of_lookupSteps {fuel : Nat} {steps : List LookupStep}
    (nulFree : NulFree text) (read : lookupSteps delim indexdelim fuel text = some steps) :
    ∃ tokens, tokens ≠ [] ∧ (∀ token ∈ tokens, PathToken.Proper delim indexdelim token) ∧
      (text = tokensText delim indexdelim tokens ∨ text = joinTokens delim indexdelim tokens) := by
  induction fuel generalizing text steps with
  | zero => cases read
  | succ fuel ih =>
    rw [lookupSteps] at read
    cases scanned : scanStep delim indexdelim text with
    | none =>
      rw [scanned] at read
      cases read
    | some result =>
      rcases result with ⟨step, rest⟩
      rw [scanned] at read
      dsimp only at read
      rcases scanStep_tokenOf delims nulFree scanned with ⟨token, proper, -, ends, split⟩
      -- the tokens behind this one
      have later : ∃ tokens, (∀ token ∈ tokens, PathToken.Proper delim indexdelim token) ∧
          rest = tokensText delim indexdelim tokens := by
        by_cases last : rest = []
        · exact ⟨[], by simp, last⟩
        · rw [if_neg last] at read
          rcases map_eq_some_iff.mp read with ⟨more, read', -⟩
          have free : NulFree rest := fun member => by
            rcases split with same | ⟨name, -, same⟩
            · exact nulFree (same ▸ mem_append_right _ member)
            · exact nulFree (same ▸ mem_append_right _ member)
          rcases ih free read' with ⟨tokens, -, proper', same | same⟩
          · exact ⟨tokens, proper', same⟩
          · rw [same] at ends
            exact ⟨tokens, proper', same.trans (joinTokens_of_endsToken proper' ends)⟩
      rcases later with ⟨tokens, proper', same⟩
      refine ⟨token :: tokens, cons_ne_nil token tokens, ?_, ?_⟩
      · intro other member
        rcases mem_cons.mp member with rfl | among
        · exact proper
        · exact proper' other among
      · rw [same] at split
        rcases split with whole | ⟨name, rfl, whole⟩
        · exact .inl whole
        · exact .inr whole

/-! ## Looking up a joined path -/

theorem nulFree_text {token : PathToken} (proper : token.Proper delim indexdelim) :
    NulFree (token.text delim indexdelim) := by
  intro member
  cases token with
  | key name =>
    rcases mem_cons.mp member with same | inside
    · exact delims.slotNotNul same.symm
    · exact proper.2.1 inside
  | index digits =>
    rcases mem_cons.mp member with same | inside
    · exact delims.indexNotNul same.symm
    · have digit := proper.2 0 inside
      revert digit
      decide

theorem nulFree_tokensText (proper : ∀ token ∈ tokens, token.Proper delim indexdelim) :
    NulFree (tokensText delim indexdelim tokens) := by
  intro member
  rcases mem_flatMap.mp member with ⟨token, among, inside⟩
  exact nulFree_text delims (proper token among) inside

end

theorem joinTokens_suffix (tokens : List PathToken) :
    joinTokens delim indexdelim tokens <:+ tokensText delim indexdelim tokens := by
  cases tokens with
  | nil => exact suffix_rfl
  | cons token tokens =>
    cases token with
    | key name => exact suffix_cons delim _
    | index digits => exact suffix_rfl

theorem nulFree_joinTokens (delims : Delimiters delim indexdelim)
    (proper : ∀ token ∈ tokens, token.Proper delim indexdelim) :
    NulFree (joinTokens delim indexdelim tokens) := fun member =>
  nulFree_tokensText delims proper ((joinTokens_suffix tokens).subset member)

theorem length_le_tokensText (tokens : List PathToken) :
    tokens.length ≤ (tokensText delim indexdelim tokens).length := by
  induction tokens with
  | nil => exact Nat.le_refl 0
  | cons token tokens ih =>
    have positive : 0 < (token.text delim indexdelim).length := by
      cases token with
      | key name => exact Nat.succ_pos name.length
      | index digits => exact Nat.succ_pos digits.length
    change tokens.length + 1 ≤ (token.text delim indexdelim ++
      tokensText delim indexdelim tokens).length
    rw [length_append]
    omega

theorem length_le_joinTokens (proper : ∀ token ∈ tokens, token.Proper delim indexdelim) :
    tokens.length ≤ (joinTokens delim indexdelim tokens).length := by
  cases tokens with
  | nil => exact Nat.le_refl 0
  | cons token tokens =>
    cases token with
    | index digits => exact length_le_tokensText _
    | key name =>
      have positive := length_pos_of_ne_nil (proper _ mem_cons_self).1
      have later := @length_le_tokensText delim indexdelim tokens
      rw [joinTokens, length_append, length_cons]
      omega

theorem joinTokens_ne_nil (some' : tokens ≠ [])
    (proper : ∀ token ∈ tokens, token.Proper delim indexdelim) :
    joinTokens delim indexdelim tokens ≠ [] := by
  intro empty
  have length := length_le_joinTokens proper
  rw [empty] at length
  exact some' (length_eq_zero_iff.mp (Nat.le_zero.mp length))

theorem head_joinTokens (delims : Delimiters delim indexdelim)
    (proper : ∀ token ∈ tokens, token.Proper delim indexdelim) :
    (joinTokens delim indexdelim tokens).head? ≠ some delim := by
  intro same
  cases tokens with
  | nil => cases same
  | cons token tokens =>
    cases token with
    | index digits =>
      exact delims.different (Option.some.inj same).symm
    | key name =>
      rcases proper _ mem_cons_self with ⟨some', -, noSlot, -⟩
      cases name with
      | nil => exact some' rfl
      | cons c name =>
        have first : c = delim := Option.some.inj same
        exact noSlot (first ▸ mem_cons_self)

variable {path : Bytes}

section

variable (delims : Delimiters delim indexdelim)
include delims

theorem key_of_noDelimiter (nulFree : NulFree path) (some' : path ≠ [])
    (shortcut : noDelimiter delim indexdelim path = true) :
    (PathToken.key path).Proper delim indexdelim := by
  rw [noDelimiter, decide_eq_false delims.slotNotNul,
    decide_eq_false delims.indexNotNul, Bool.false_or, Bool.false_or,
    Bool.and_eq_true, Bool.not_eq_true', Bool.not_eq_true'] at shortcut
  refine ⟨some', nulFree, fun member => ?_, fun member => ?_⟩
  · rw [contains_iff_mem.mpr member] at shortcut
    exact Bool.noConfusion shortcut.1
  · rw [contains_iff_mem.mpr member] at shortcut
    exact Bool.noConfusion shortcut.2

theorem lookupPath_eq_follow (heap : Heap) (any : Handle) (nulFree : NulFree path)
    (some' : path ≠ []) (begins : path.head? ≠ some delim) :
    (Anything.lookupPath heap any path delim indexdelim).2 =
      (lookupSteps delim indexdelim path.length path).bind (follow (anythingStep heap) any) := by
  have whole := cstr_of_nulFree nulFree
  rw [Anything.lookupPath, lookupWith]
  simp only [whole]
  by_cases shortcut : noDelimiter delim indexdelim path = true
  · have proper := key_of_noDelimiter delims nulFree some' shortcut
    have alone : ∀ token ∈ [PathToken.key path], token.Proper delim indexdelim := by
      intro token member
      rw [mem_singleton.mp member]
      exact proper
    have read := lookupSteps_joinTokens delims (cons_ne_nil _ [])
      alone (Nat.succ_le_of_lt (length_pos_of_ne_nil some'))
    rw [show joinTokens delim indexdelim [.key path] = path from append_nil path] at read
    rw [if_pos shortcut, read, bind_some]
    change _ = (anythingStep heap any (.key (path ++ []) path.length
      (keyHash path))).bind fun c => some c
    rw [anythingStep_key, append_nil, bind_fun_some, Heap.findIndex, Heap.findIndex]
    simp only [Slots.findIndexHint, take_length, ite_self, ne_eq, not_true_eq_false, if_false]
  · rw [if_neg shortcut, if_neg begins, lookupLoop_eq_follow anything_reads]
    rfl

theorem lookupPath_joinTokens (heap : Heap) (any : Handle) (some' : tokens ≠ [])
    (proper : ∀ token ∈ tokens, token.Proper delim indexdelim) :
    (Anything.lookupPath heap any (joinTokens delim indexdelim tokens)
        delim indexdelim).2 =
      follow (anythingStep heap) any (scannedTokens delim indexdelim tokens) := by
  rw [lookupPath_eq_follow delims heap any (nulFree_joinTokens delims proper)
      (joinTokens_ne_nil some' proper) (head_joinTokens delims proper),
    lookupSteps_joinTokens delims some' proper (length_le_joinTokens proper), bind_some]

end

theorem lookupPath_nil (heap : Heap) (any : Handle) :
    (Anything.lookupPath heap any [] delim indexdelim).2 = none := by
  have shortcut : noDelimiter delim indexdelim [] = true := by
    rw [noDelimiter]
    exact Bool.or_true _
  have missing : heap.findIndex any [] 0 0 = none := by
    rw [Heap.findIndex]
    split
    · rfl
    · rfl
  have nulFree : NulFree [] := not_mem_nil
  rw [Anything.lookupPath, lookupWith, cstr_of_nulFree nulFree, shortcut,
    if_pos rfl, missing, map_none]

theorem lookupPath_delimiter (delims : Delimiters delim indexdelim)
    (heap : Heap) (any : Handle) (nulFree : NulFree path) (begins : path.head? = some delim) :
    (Anything.lookupPath heap any path delim indexdelim).2 = none := by
  have delimited : noDelimiter delim indexdelim path = false := by
    have member : delim ∈ path := mem_of_head? begins
    rw [noDelimiter, decide_eq_false delims.slotNotNul,
      decide_eq_false delims.indexNotNul, contains_iff_mem.mpr member]
    rfl
  rw [Anything.lookupPath, lookupWith, cstr_of_nulFree nulFree, delimited,
    if_neg Bool.false_ne_true, if_pos begins]

/-- A path that leads somewhere is one of proper tokens. -/
theorem tokens_of_lookupPath (delims : Delimiters delim indexdelim)
    {heap : Heap} {any c : Handle} (nulFree : NulFree path)
    (found : (Anything.lookupPath heap any path delim indexdelim).2 = some c) :
    ∃ tokens, tokens ≠ [] ∧ (∀ token ∈ tokens, PathToken.Proper delim indexdelim token) ∧
      path = joinTokens delim indexdelim tokens := by
  have some' : path ≠ [] := by
    rintro rfl
    rw [lookupPath_nil] at found
    cases found
  have begins : path.head? ≠ some delim := by
    intro first
    rw [lookupPath_delimiter delims heap any nulFree first] at found
    cases found
  rw [lookupPath_eq_follow delims heap any nulFree some' begins] at found
  rcases bind_eq_some_iff.mp found with ⟨steps, read, -⟩
  rcases tokens_of_lookupSteps delims nulFree read with ⟨tokens, some', proper, same | same⟩
  · refine ⟨tokens, some', proper, ?_⟩
    cases tokens with
    | nil => exact absurd rfl some'
    | cons token tokens =>
      cases token with
      | index digits => exact same
      | key name =>
        rw [same] at begins
        exact absurd rfl begins
  · exact ⟨tokens, some', proper, same⟩

end Coast
