import Coast.Base.BinaryBuffer
import Coast.Base.NumberHistory
import Coast.Base.TokenProgress

/-!
# Whether an import returns

The parser calls itself for an array inside an array and for an included
file, and its loop goes on turn after turn.  `Returns` says that such a call
returns, without a bound on calls and turns.
-/

namespace Coast

open Nat

/-- The array that an element begins, if it begins one. -/
def arrayInside (level : List PathStep) (tok : AnythingToken)
    (slots : Slots Handle) (st : ParseState) :
    Option (List PathStep × ParseState) :=
  match tok.token with
  | .eIndex =>
    if st.token.1.token = .char (ch '\x7b') then
      some (level ++ [.key tok.text], st.token.2)
    else none
  | .char c =>
    if c = ch '\x7b' then
      some (level ++ [.index (Int64.ofNat slots.length)], st)
    else none
  | _ => none

/-- The address that an element includes, if it does. -/
def includeInside (tok : AnythingToken) (st : ParseState) : Option (Bytes × ParseState) :=
  match tok.token with
  | .eIndex =>
    if st.token.1.token = .eInclude then
      some (st.token.1.text, st.token.2)
    else none
  | .eInclude => some (tok.text, st)
  | _ => none

/-! ## Calls that return -/

def turnToken (pending : Option AnythingToken) (st : ParseState) : AnythingToken × ParseState :=
  match pending with
  | some tok => (tok, st)
  | none => st.token

def afterTurn (ok : Bool) : Outcome →
    (Bool × Slots Handle × ParseState) ⊕ (Option AnythingToken × Bool × Slots Handle × ParseState)
  | .finished done slots st => .inl (ok && done, slots, st)
  | .slot lastok slots st =>
    if st.stream.good then .inr (none, ok && lastok, slots, st)
    else .inl (false, slots, st)
  | .restart tok slots st => .inr (some tok, ok, slots, st)

def includedText (env : ParserEnv) (url : Bytes) : Option Bytes :=
  let (protocol, fileName, _) := splitUrl url
  if protocol = [] || protocol = lit "FILE" then env.openStream fileName
  else none

def includeStart (env : ParserEnv) (url : Bytes) (st : ParseState) : Option ParseState :=
  (includedText env url).map fun contents =>
    { st with stream := IStream.ofText contents }

def includeResult (env : ParserEnv) (url : Bytes)
    (imported : ParseState → Bool × Handle × ParseState) (st : ParseState) : Handle × ParseState :=
  match includeStart env url st with
  | none => (none, st)
  | some start =>
    let (ok, element, inner) := imported start
    let st := { st with erange := inner.erange, heap := inner.heap }
    let (_, _, query) := splitUrl url
    if ok && query ≠ [] then
      let (steps, erange) := escapedQueryStringToAny query
      (st.heap.resolve element (steps.map some), { st with erange := st.erange || erange })
    else (element, st)

def importResult (env : ParserEnv)
    (sequence : List PathStep → ParseState → Bool × Slots Handle × ParseState)
    (st : ParseState) : Bool × Handle × ParseState :=
  let (tok, st) := { st with xrefs := [] }.token
  let (ok, any, st) := parseValue env sequence [] tok st
  (ok, any, { st with heap := patch any st.heap st.xrefs })

/-- The tokens that a turn reads need no memory that is not there: its own,
and the one behind a key. -/
def TurnStored (mem : StringEnv) (pending : Option AnythingToken) (st : ParseState) : Prop :=
  (pending = none → AnythingToken.Stored mem st.stream) ∧
    ((turnToken pending st).1.token = .eIndex →
      AnythingToken.Stored mem (turnToken pending st).2.stream)

/-- The calls that can go on without an end. -/
inductive Call where
  /-- `DoParseSequence` before a turn of its loop. -/
  | sequence (level : List PathStep) (pending : Option AnythingToken)
      (ok : Bool) (slots : Slots Handle) (st : ParseState)
  | includeAny (url : Bytes) (st : ParseState)
  | importAny (st : ParseState)

abbrev Call.Result : Call → Type
  | .sequence .. => Bool × Slots Handle × ParseState
  | .includeAny .. => Handle × ParseState
  | .importAny _ => Bool × Handle × ParseState

/-- The call returns this result after finitely many calls and turns, all of
them inside the memory of their strings. -/
inductive Returns (env : ParserEnv) (mem : StringEnv) : (call : Call) → call.Result → Prop
  | lastTurn {level pending ok slots st result}
      (includeAny : Bytes → ParseState → Handle × ParseState)
      (sequence : List PathStep → ParseState → Bool × Slots Handle × ParseState)
      (stored : TurnStored mem pending st)
      (included : ∀ url inner,
        includeInside (turnToken pending st).1 (turnToken pending st).2 = some (url, inner) →
        Returns env mem (.includeAny url inner) (includeAny url inner))
      (inside : ∀ into inner, arrayInside level (turnToken pending st).1 slots
          (turnToken pending st).2 = some (into, inner) →
        Returns env mem (.sequence into none true [] inner) (sequence into inner))
      (last : afterTurn ok
        (parseElement env includeAny sequence level (turnToken pending st).1
          slots (turnToken pending st).2) = .inl result) :
      Returns env mem (.sequence level pending ok slots st) result
  | turn {level pending ok slots st next result}
      (includeAny : Bytes → ParseState → Handle × ParseState)
      (sequence : List PathStep → ParseState → Bool × Slots Handle × ParseState)
      (stored : TurnStored mem pending st)
      (included : ∀ url inner,
        includeInside (turnToken pending st).1 (turnToken pending st).2 = some (url, inner) →
        Returns env mem (.includeAny url inner) (includeAny url inner))
      (inside : ∀ into inner, arrayInside level (turnToken pending st).1 slots
          (turnToken pending st).2 = some (into, inner) →
        Returns env mem (.sequence into none true [] inner) (sequence into inner))
      (goesOn : afterTurn ok
        (parseElement env includeAny sequence level (turnToken pending st).1
          slots (turnToken pending st).2) = .inr next)
      (rest : Returns env mem
        (.sequence level next.1 next.2.1 next.2.2.1 next.2.2.2) result) :
      Returns env mem (.sequence level pending ok slots st) result
  | includeAny {url st} (imported : ParseState → Bool × Handle × ParseState)
      (inside : ∀ start, includeStart env url st = some start →
        Returns env mem (.importAny start) (imported start)) :
      Returns env mem (.includeAny url st) (includeResult env url imported st)
  | importAny {st} (sequence : List PathStep → ParseState → Bool × Slots Handle × ParseState)
      (readable : st.stream.fail = false) (stored : AnythingToken.Stored mem st.stream)
      (inside : { st with xrefs := [] }.token.1.token = .char (ch '\x7b') →
        Returns env mem (.sequence [] none true [] { st with xrefs := [] }.token.2)
          (sequence [] { st with xrefs := [] }.token.2)) :
      Returns env mem (.importAny st) (importResult env sequence st)
  | unreadable {st} (failed : st.stream.fail = true) :
      Returns env mem (.importAny st) (false, none, st)

theorem doParseSequence_succ (env : ParserEnv)
    (includeAny : Bytes → ParseState → Handle × ParseState) (fuel : Nat) (level : List PathStep)
    (pending : Option AnythingToken) (ok : Bool) (slots : Slots Handle) (st : ParseState) :
    doParseSequence env includeAny (fuel + 1) level pending ok slots st = (afterTurn ok
        (parseElement env includeAny
          (fun level st => doParseSequence env includeAny fuel level none true [] st)
          level (turnToken pending st).1 slots
          (turnToken pending st).2)).elim
        (fun result => result)
        (fun next => doParseSequence env includeAny fuel level next.1
          next.2.1 next.2.2.1 next.2.2.2) := by
  have outcomes : ∀ outcome, (match outcome with
          | .finished done slots st => (ok && done, slots, st)
          | .slot lastok slots st =>
            if st.stream.good then
              doParseSequence env includeAny fuel level none (ok && lastok) slots st
            else (false, slots, st)
          | .restart tok slots st =>
            doParseSequence env includeAny fuel level (some tok) ok
              slots st) =
        (afterTurn ok outcome).elim (fun result => result)
          (fun next => doParseSequence env includeAny fuel level next.1
            next.2.1 next.2.2.1 next.2.2.2) := by
    intro outcome
    cases outcome with
    | finished done slots st => rfl
    | slot lastok slots st =>
      dsimp only [afterTurn]
      split <;> rfl
    | restart tok slots st => rfl
  cases pending with
  | none => exact outcomes _
  | some tok => exact outcomes _

theorem importWith_of_readable (env : ParserEnv)
    (includeAny : Bytes → ParseState → Handle × ParseState) {st : ParseState}
    (readable : st.stream.fail = false) :
    importWith env includeAny st = importResult env
        (fun level inner => doParseSequence env includeAny
          (st.stream.rest.length + 1) level none true [] inner) st := by
  rw [importWith, if_neg (ne_true_of_eq_false readable)]
  rfl

theorem importIncludeAny_succ (env : ParserEnv) (depth : Nat) (url : Bytes) (st : ParseState) :
    importIncludeAny env (depth + 1) url st =
      includeResult env url (importWith env (importIncludeAny env depth)) st := by
  unfold importIncludeAny includeResult includeStart includedText
  dsimp only
  split
  · split
    · rename_i unopened
      rw [unopened]
      rfl
    · rename_i opened
      rw [opened]
      rfl
  · rfl

/-! ## The stream during a parse -/

/-- `s` is reached from `start` by reading tokens. -/
inductive Scans (start : IStream) : IStream → Prop
  | here : Scans start start
  | token {s : IStream} : Scans start s → Scans start (AnythingToken.read s).2

/-- The stream of a state that the parse from `start` reaches behind `s`. -/
def Behind (start s after : IStream) : Prop := Scans start after ∧ after.rest.length ≤ s.rest.length

variable {start : IStream}

theorem Behind.refl {s : IStream} (scanned : Scans start s) : Behind start s s :=
  ⟨scanned, le_refl _⟩

theorem Behind.trans {s middle after : IStream}
    (first : Behind start s middle) (second : Behind start middle after) :
    Behind start s after :=
  ⟨second.1, second.2.trans first.2⟩

variable {st : ParseState}

theorem behind_token (scanned : Scans start st.stream) :
    Behind start st.stream st.token.2.stream := by
  refine ⟨.token scanned, ?_⟩
  rcases AnythingToken.read_progress st.stream with taken | ⟨_, _, same⟩
  · exact le_of_lt taken
  · exact same

theorem stream_makeSimpleAny (env : ParserEnv) (tok : AnythingToken) (st : ParseState) :
    (makeSimpleAny env tok st).2.2.stream = st.stream := by
  have number : ∀ erange impl, (makeNumber st erange impl).2.stream = st.stream := by
    intro erange impl
    unfold makeNumber
    dsimp only
    split <;> rfl
  obtain ⟨kind, text⟩ := tok
  unfold makeSimpleAny
  cases kind with
  | eStringError =>
    dsimp only
    split <;> rfl
  | eDecimalNumber | eOctalNumber | eHexNumber | eFloatNumber
  | eObject => exact number _ _
  | eNullSym | eString | eBinaryBuf | eIndex | eRef | eInclude | eError
  | char => rfl

def Outcome.state : Outcome → ParseState
  | .finished _ _ st => st
  | .slot _ _ st => st
  | .restart _ _ st => st

section Turn

variable {env : ParserEnv}
variable {includeAny : Bytes → ParseState → Handle × ParseState}
variable {sequence : List PathStep → ParseState → Bool × Slots Handle × ParseState}
variable {start : IStream}

variable {level : List PathStep} {tok : AnythingToken} {st : ParseState}

theorem behind_parseValue (scanned : Scans start st.stream)
    (inside : tok.token = .char (ch '\x7b') →
      Behind start st.stream (sequence level st).2.2.stream) :
    Behind start st.stream (parseValue env sequence level tok st).2.2.stream := by
  unfold parseValue parseArray
  split
  · rename_i brace
    exact inside brace
  · rw [stream_makeSimpleAny]
    exact Behind.refl scanned

variable {slots : Slots Handle}

theorem behind_parseNamed {key : Bytes} (scanned : Scans start st.token.2.stream)
    (included : ∀ url inner, (includeAny url inner).2.stream = inner.stream)
    (inside : st.token.1.token = .char (ch '\x7b') → Behind start st.token.2.stream
        (sequence (level ++ [.key key]) st.token.2).2.2.stream) :
    Behind start st.token.2.stream
      (parseNamed env includeAny sequence level key slots st).state.stream
      := by
  unfold parseNamed
  dsimp only
  split
  · exact Behind.refl scanned
  · dsimp only [Outcome.state]
    rw [included]
    exact Behind.refl scanned
  · exact Behind.refl scanned
  · exact behind_parseValue scanned inside

theorem behind_parseUnnamed (scanned : Scans start st.stream)
    (inside : tok.token = .char (ch '\x7b') → Behind start st.stream
        (sequence (level ++ [.index (Int64.ofNat slots.length)])
          st).2.2.stream) :
    Behind start st.stream
      (parseUnnamed env sequence level tok slots st).state.stream :=
  behind_parseValue scanned inside

theorem behind_parseElement (scanned : Scans start st.stream)
    (included : ∀ url inner, (includeAny url inner).2.stream = inner.stream)
    (inside : ∀ into inner, arrayInside level tok slots st = some (into, inner) →
        Behind start inner.stream (sequence into inner).2.2.stream) :
    Behind start st.stream
        (parseElement env includeAny sequence level tok slots
          st).state.stream ∧
      (tok.token = .eIndex → Behind start st.token.2.stream
          (parseElement env includeAny sequence level tok slots st).state.stream) := by
  obtain ⟨kind, text⟩ := tok
  unfold arrayInside at inside
  unfold parseElement
  cases kind with
  | eIndex =>
    dsimp only at inside ⊢
    have next := behind_token scanned
    have named : Behind start st.token.2.stream
        (parseNamed env includeAny sequence level text slots
          st).state.stream :=
      behind_parseNamed next.1 included fun brace => inside _ _ (if_pos brace)
    exact ⟨next.trans named, fun _ => named⟩
  | char c =>
    dsimp only at inside ⊢
    refine ⟨?_, fun named => nomatch named⟩
    split
    · exact Behind.refl scanned
    · exact behind_parseUnnamed scanned fun brace => inside _ _ (if_pos (Tok.char.inj brace))
  | eInclude =>
    refine ⟨?_, fun named => nomatch named⟩
    dsimp only [Outcome.state]
    rw [included]
    exact Behind.refl scanned
  | eNullSym | eError | eRef =>
    exact ⟨Behind.refl scanned, fun named => nomatch named⟩
  | eDecimalNumber | eOctalNumber | eHexNumber | eFloatNumber | eString
  | eBinaryBuf | eObject | eStringError =>
    exact ⟨behind_parseUnnamed scanned (fun brace => nomatch brace), fun named => nomatch named⟩

theorem restart_parseElement {next : AnythingToken} {slots' : Slots Handle} {st' : ParseState}
    (restarts : parseElement env includeAny sequence level tok slots st =
      .restart next slots' st') :
    next.token = .eIndex := by
  obtain ⟨kind, text⟩ := tok
  unfold parseElement at restarts
  cases kind with
  | eIndex =>
    dsimp only at restarts
    unfold parseNamed at restarts
    dsimp only at restarts
    split at restarts
    · cases restarts
    · cases restarts
    · rename_i index
      cases restarts
      exact index
    · cases restarts
  | char c =>
    dsimp only at restarts
    split at restarts <;> cases restarts
  | eInclude | eNullSym | eError | eRef | eDecimalNumber | eOctalNumber
  | eHexNumber | eFloatNumber | eString | eBinaryBuf | eObject
  | eStringError => cases restarts

theorem afterTurn_of_nullSym {ok : Bool} (named : tok.token = .eIndex)
    (ended : st.token.1.token = .eNullSym) (bad : st.token.2.stream.good = false) :
    ∃ result, afterTurn ok
      (parseElement env includeAny sequence level tok slots st) = .inl result := by
  obtain ⟨kind, text⟩ := tok
  obtain rfl : kind = .eIndex := named
  have unread : parseValue env sequence (level ++ [.key text]) st.token.1
      st.token.2 = (false, none, st.token.2) := by
    unfold parseValue makeSimpleAny
    rw [ended]
    rfl
  refine ⟨(false, slots.setKey text none, st.token.2), ?_⟩
  unfold parseElement parseNamed
  dsimp only
  rw [ended]
  dsimp only
  rw [unread]
  unfold afterTurn
  dsimp only
  rw [bad]
  rfl

end Turn

/-! ## Every call returns -/

theorem stream_importIncludeAny (env : ParserEnv) (depth : Nat) (url : Bytes) (st : ParseState) :
    (importIncludeAny env depth url st).2.stream = st.stream := by
  cases depth with
  | zero => rfl
  | succ depth =>
    rw [importIncludeAny_succ]
    unfold includeResult
    split
    · rfl
    · dsimp only
      split <;> rfl

theorem afterTurn_inl {ok : Bool} {outcome : Outcome} {result : Bool × Slots Handle × ParseState}
    (last : afterTurn ok outcome = .inl result) :
    result.2.2 = outcome.state := by
  cases outcome with
  | finished done slots st =>
    cases last
    rfl
  | slot lastok slots st =>
    dsimp only [afterTurn] at last
    split at last
    · cases last
    · cases last
      rfl
  | restart tok slots st => cases last

theorem afterTurn_inr {ok : Bool} {outcome : Outcome}
    {next : Option AnythingToken × Bool × Slots Handle × ParseState}
    (goesOn : afterTurn ok outcome = .inr next) :
    next.2.2.2 = outcome.state ∧
      ∀ tok, next.1 = some tok → ∃ slots st, outcome = .restart tok slots st := by
  cases outcome with
  | finished done slots st => cases goesOn
  | slot lastok slots st =>
    dsimp only [afterTurn] at goesOn
    split at goesOn
    · cases goesOn
      exact ⟨rfl, fun tok pending => nomatch pending⟩
    · cases goesOn
  | restart tok slots st =>
    cases goesOn
    exact ⟨rfl, fun _ pending => ⟨slots, st, by cases pending; rfl⟩⟩

def PendingKey (pending : Option AnythingToken) : Prop :=
  ∀ tok, pending = some tok → tok.token = .eIndex

/-- What the loop knows of its token: it was taken from the stream, or it is
the key that was read before, or the text has ended. -/
theorem turnToken_cases {pending : Option AnythingToken}
    (scanned : Scans start st.stream) (key : PendingKey pending) :
    Behind start st.stream (turnToken pending st).2.stream ∧
      ((turnToken pending st).1.token = .eIndex ∨
        (turnToken pending st).1 = (AnythingToken.read st.stream).1 ∧
          ((turnToken pending st).2.stream.rest.length < st.stream.rest.length ∨
            (turnToken pending st).1.token = .eNullSym)) := by
  cases pending with
  | none =>
    refine ⟨behind_token scanned, Or.inr ⟨rfl, ?_⟩⟩
    exact (AnythingToken.read_progress st.stream).imp id And.left
  | some tok => exact ⟨Behind.refl scanned, Or.inl (key tok rfl)⟩

section Sequence

variable {env : ParserEnv}
variable {includeAny : Bytes → ParseState → Handle × ParseState}
variable {start : IStream}
variable {pending : Option AnythingToken} {st : ParseState}

section

variable (scanned : Scans start st.stream)
include scanned

variable (key : PendingKey pending)
include key

theorem arrayInside_smaller {level into : List PathStep} {slots : Slots Handle} {inner : ParseState}
    (inside : arrayInside level (turnToken pending st).1 slots
      (turnToken pending st).2 = some (into, inner)) :
    Scans start inner.stream ∧ inner.stream.rest.length < st.stream.rest.length := by
  obtain ⟨behind, kinds⟩ := turnToken_cases scanned key
  generalize turnToken pending st = turn at *
  unfold arrayInside at inside
  split at inside
  · split at inside
    · rename_i brace
      cases inside
      refine ⟨.token behind.1, ?_⟩
      rcases AnythingToken.read_progress turn.2.stream with taken | ended
      · exact lt_of_lt_of_le taken behind.2
      · cases brace.symm.trans ended.1
    · cases inside
  · rename_i c isChar
    split at inside
    · cases inside
      refine ⟨behind.1, ?_⟩
      rcases kinds with named | ⟨_, taken | ended⟩
      · cases isChar.symm.trans named
      · exact taken
      · cases isChar.symm.trans ended
    · cases inside
  · cases inside

theorem includeInside_scanned {url : Bytes} {inner : ParseState}
    (inside : includeInside (turnToken pending st).1
      (turnToken pending st).2 = some (url, inner)) :
    ∃ s, Scans start s ∧ (AnythingToken.read s).1 = ⟨.eInclude, url⟩ := by
  obtain ⟨behind, kinds⟩ := turnToken_cases scanned key
  generalize turnToken pending st = turn at *
  obtain ⟨⟨kind, text⟩, after⟩ := turn
  unfold includeInside at inside
  split at inside
  · split at inside
    · rename_i isInclude
      cases inside
      exact ⟨_, behind.1, by rw [← isInclude]; rfl⟩
    · cases inside
  · rename_i isInclude
    cases inside
    rcases kinds with named | ⟨same, _⟩
    · cases isInclude.symm.trans named
    · refine ⟨_, scanned, ?_⟩
      rw [← same]
      obtain rfl : kind = .eInclude := isInclude
      rfl
  · cases inside

theorem goesOn_smaller {level : List PathStep}
    {sequence : List PathStep → ParseState → Bool × Slots Handle × ParseState}
    {ok : Bool} {slots : Slots Handle}
    {next : Option AnythingToken × Bool × Slots Handle × ParseState}
    (included : ∀ url inner, (includeAny url inner).2.stream = inner.stream)
    (inside : ∀ into inner, arrayInside level (turnToken pending st).1 slots
        (turnToken pending st).2 = some (into, inner) →
        Behind start inner.stream (sequence into inner).2.2.stream)
    (goesOn : afterTurn ok (parseElement env includeAny sequence level
      (turnToken pending st).1 slots (turnToken pending st).2) = .inr next) :
    Behind start st.stream next.2.2.2.stream ∧ PendingKey next.1 ∧
      next.2.2.2.stream.rest.length < st.stream.rest.length := by
  obtain ⟨behind, kinds⟩ := turnToken_cases scanned key
  generalize turnToken pending st = turn at *
  obtain ⟨reached, restarts⟩ := afterTurn_inr goesOn
  obtain ⟨element, named⟩ : Behind start turn.2.stream
        (parseElement env includeAny sequence level turn.1 slots
          turn.2).state.stream ∧ _ :=
    behind_parseElement behind.1 included inside
  rw [reached]
  refine ⟨behind.trans element, ?_, ?_⟩
  · intro tok pendingNext
    obtain ⟨slots', st', restart⟩ := restarts tok pendingNext
    exact restart_parseElement restart
  · rcases kinds with isKey | ⟨_, taken | ended⟩
    · rcases AnythingToken.read_progress turn.2.stream with taken | ⟨ended, bad, _⟩
      · exact lt_of_le_of_lt (named isKey).2 (lt_of_lt_of_le taken behind.2)
      · have last : ∃ result, afterTurn ok (parseElement env includeAny
            sequence level turn.1 slots turn.2) = .inl result :=
          afterTurn_of_nullSym isKey ended bad
        cases last.choose_spec.symm.trans goesOn
    · exact lt_of_le_of_lt element.2 taken
    · unfold parseElement at goesOn
      rw [ended] at goesOn
      cases goesOn

end

/-- A sequence returns if what it imports does. -/
theorem returns_sequence {mem : StringEnv}
    (stored : ∀ s, Scans start s → AnythingToken.Stored mem s)
    (included : ∀ url inner, (includeAny url inner).2.stream = inner.stream)
    (includesReturn : ∀ s url inner, Scans start s → (AnythingToken.read s).1 = ⟨.eInclude, url⟩ →
      Returns env mem (.includeAny url inner) (includeAny url inner)) :
    ∀ fuel level pending ok slots st, Scans start st.stream →
      PendingKey pending → st.stream.rest.length < fuel →
      Returns env mem (.sequence level pending ok slots st)
          (doParseSequence env includeAny fuel level pending ok slots st) ∧
        Behind start st.stream
          (doParseSequence env includeAny fuel level pending ok slots st).2.2.stream := by
  intro fuel
  induction fuel with
  | zero =>
    intro _ _ _ _ st _ _ small
    exact absurd small (not_lt_zero _)
  | succ fuel ih =>
    intro level pending ok slots st scanned key small
    have noKey : PendingKey none := fun tok pending => nomatch pending
    have calls : ∀ url inner,
        includeInside (turnToken pending st).1 (turnToken pending st).2 = some (url, inner) →
        Returns env mem (.includeAny url inner) (includeAny url inner) := by
      intro url inner isIncluded
      obtain ⟨s, reached, token⟩ := includeInside_scanned scanned key isIncluded
      exact includesReturn s url inner reached token
    have arrays : ∀ into inner, arrayInside level (turnToken pending st).1 slots
          (turnToken pending st).2 = some (into, inner) →
        Returns env mem (.sequence into none true [] inner)
            (doParseSequence env includeAny fuel into none true []
              inner) ∧
          Behind start inner.stream
            (doParseSequence env includeAny fuel into none true [] inner).2.2.stream := by
      intro into inner isArray
      obtain ⟨there, smaller⟩ := arrayInside_smaller scanned key isArray
      exact ih into none true [] inner there noKey (by omega)
    have behind := (turnToken_cases scanned key).1
    have stores : TurnStored mem pending st :=
      ⟨fun _ => stored _ scanned, fun _ => stored _ behind.1⟩
    rw [doParseSequence_succ]
    cases after : afterTurn ok (parseElement env includeAny
        (fun level st => doParseSequence env includeAny fuel level none true [] st)
        level (turnToken pending st).1 slots (turnToken pending st).2) with
    | inl result =>
      refine ⟨.lastTurn includeAny _ stores calls
        (fun into inner isArray => (arrays into inner isArray).1) after,
        ?_⟩
      dsimp only [Sum.elim_inl]
      rw [afterTurn_inl after]
      exact behind.trans (behind_parseElement behind.1 included
        fun into inner isArray => (arrays into inner isArray).2).1
    | inr next =>
      obtain ⟨further, nextKey, smaller⟩ := goesOn_smaller scanned key
        included (fun into inner isArray =>
          (arrays into inner isArray).2) after
      obtain ⟨rest, onward⟩ := ih level next.1 next.2.1
        next.2.2.1 next.2.2.2 further.1 nextKey (by omega)
      exact ⟨.turn includeAny _ stores calls
        (fun into inner isArray => (arrays into inner isArray).1) after
        rest, further.trans onward⟩

end Sequence

def Includes (env : ParserEnv) (start : IStream) (text : Bytes) : Prop :=
  ∃ s url, Scans start s ∧ (AnythingToken.read s).1 = ⟨.eInclude, url⟩ ∧
    includedText env url = some text

/-- The files that are included one in the other have at most this depth, and
there is memory for every token of them. -/
def NestsWithin (env : ParserEnv) (mem : StringEnv) : Nat → IStream → Prop
  | 0, start =>
    (∀ s, Scans start s → AnythingToken.Stored mem s) ∧ ∀ text, ¬ Includes env start text
  | depth + 1, start =>
    (∀ s, Scans start s → AnythingToken.Stored mem s) ∧
      ∀ text, Includes env start text → NestsWithin env mem depth (IStream.ofText text)

theorem NestsWithin.stored {env : ParserEnv} {mem : StringEnv} {depth : Nat}
    (nests : NestsWithin env mem depth start) :
    ∀ s, Scans start s → AnythingToken.Stored mem s := by
  cases depth with
  | zero => exact nests.1
  | succ depth => exact nests.1

theorem returns_importWith {env : ParserEnv} {mem : StringEnv}
    (stored : ∀ s, Scans st.stream s → AnythingToken.Stored mem s)
    {includeAny : Bytes → ParseState → Handle × ParseState}
    (included : ∀ url inner, (includeAny url inner).2.stream = inner.stream)
    (includesReturn : ∀ s url inner, Scans st.stream s →
      (AnythingToken.read s).1 = ⟨.eInclude, url⟩ →
      Returns env mem (.includeAny url inner) (includeAny url inner)) :
    Returns env mem (.importAny st) (importWith env includeAny st) := by
  by_cases failed : st.stream.fail = true
  · rw [importWith, if_pos failed]
    exact .unreadable failed
  rw [importWith_of_readable env includeAny (eq_false_of_ne_true failed)]
  refine .importAny _ (eq_false_of_ne_true failed) (stored _ .here) fun brace => ?_
  have small : { st with xrefs := [] }.token.2.stream.rest.length < st.stream.rest.length + 1 := by
    rcases AnythingToken.read_progress st.stream with taken | ⟨_, _, same⟩
    · exact lt_succ_of_lt taken
    · exact lt_succ_of_le same
  exact (returns_sequence stored included includesReturn _ [] none true [] _
    (.token .here) (fun tok pending => nomatch pending) small).1

theorem returns_importIncludeAny {env : ParserEnv} {mem : StringEnv} (depth : Nat) :
    ∀ start, NestsWithin env mem depth start → ∀ s url inner, Scans start s →
        (AnythingToken.read s).1 = ⟨.eInclude, url⟩ →
        Returns env mem (.includeAny url inner) (importIncludeAny env depth url inner) := by
  induction depth with
  | zero =>
    intro start nests s url inner scanned token
    have unopened : includedText env url = none := by
      cases opened : includedText env url with
      | none => rfl
      | some text =>
        exact absurd ⟨s, url, scanned, token, opened⟩ (nests.2 text)
    have started : includeStart env url inner = none := by
      unfold includeStart
      rw [unopened]
      rfl
    have nothing : importIncludeAny env 0 url inner =
        includeResult env url (fun start => (false, none, start)) inner := by
      unfold includeResult
      rw [started]
      rfl
    rw [nothing]
    refine .includeAny _ fun start' opened => ?_
    cases started.symm.trans opened
  | succ depth ih =>
    intro start nests s url inner scanned token
    rw [importIncludeAny_succ]
    refine .includeAny _ fun start' opened => ?_
    unfold includeStart at opened
    obtain ⟨text, contents, rfl⟩ := Option.map_eq_some_iff.mp opened
    have deeper := nests.2 text ⟨s, url, scanned, token, contents⟩
    exact returns_importWith deeper.stored (stream_importIncludeAny env depth) (ih (IStream.ofText text) deeper)

/-- Every token takes a character net of what is put back or reaches the end
of the text, the loops of the scanner end, and an import returns whenever the
included files are nested finitely and there is memory for their tokens. -/
theorem import_returns (env : ParserEnv) (mem : StringEnv) (depth : Nat) (st : ParseState)
    (nests : NestsWithin env mem depth st.stream) :
    (∀ s, (AnythingToken.read s).2.rest.length < s.rest.length ∨
      (AnythingToken.read s).1.token = .eNullSym ∧ (AnythingToken.read s).2.good = false ∧
        (AnythingToken.read s).2.rest.length ≤ s.rest.length) ∧
    (∀ s, TurnLoop.Ends AnythingToken.readTurn s (AnythingToken.read s)) ∧
    (∀ quote state, TurnLoop.Ends (intReadTurn quote) state
      (intReadLoop quote (state.2.2.rest.length + 1) state.1 state.2.1
        state.2.2)) ∧
    Returns env mem (.importAny st)
      (importWith env (importIncludeAny env depth) st) :=
  ⟨AnythingToken.read_progress, AnythingToken.read_ends,
    fun quote state => intReadLoop_ends quote _ state (lt_succ_self _),
    returns_importWith nests.stored (stream_importIncludeAny env depth)
      (returns_importIncludeAny depth st.stream nests)⟩

/-- A buffer that is not stored stops the import for ever. -/
theorem not_returns_of_not_stored {env : ParserEnv} {mem : StringEnv}
    (readable : st.stream.fail = false) (outside : ¬ AnythingToken.Stored mem st.stream)
    (result : Bool × Handle × ParseState) : ¬ Returns env mem (.importAny st) result := by
  intro returns
  cases returns with
  | importAny sequence readable stored inside => exact outside stored
  | unreadable failed => cases readable.symm.trans failed

private theorem scans_closed {reached : List IStream} (begins : start ∈ reached)
    (closed : ∀ s ∈ reached, (AnythingToken.read s).2 ∈ reached) :
    ∀ s, Scans start s → s ∈ reached := by
  intro s scanned
  induction scanned with
  | here => exact begins
  | token _ ih => exact closed _ ih

theorem nestsWithin_of_reached {env : ParserEnv} {reached : List IStream} (begins : start ∈ reached)
    (closed : ∀ s ∈ reached, (AnythingToken.read s).2 ∈ reached ∧
      (AnythingToken.read s).1.token ≠ .eInclude ∧ AnythingToken.bufferAt s = none ∧
        (AnythingToken.read s).1.text.length ≤ 128) :
    NestsWithin env StringRep.exactEnv 0 start := by
  have inside := scans_closed begins fun s member => (closed s member).1
  constructor
  · intro s scanned
    obtain ⟨_, _, unbuffered, short⟩ := closed s (inside s scanned)
    exact AnythingToken.stored_short unbuffered short
  · rintro text ⟨s, url, scanned, token, _⟩
    exact (closed s (inside s scanned)).2.1 (congrArg AnythingToken.token token)

def openText : IStream := IStream.ofText (lit "\x7b")

theorem import_returns_openText :
    Returns bareEnv StringRep.exactEnv (.importAny ⟨openText, false, [], []⟩)
      (importWith bareEnv (importIncludeAny bareEnv 0) ⟨openText, false, [], []⟩) := by
  let first := (AnythingToken.read openText).2
  let last := (AnythingToken.read first).2
  exact (import_returns bareEnv StringRep.exactEnv 0 ⟨openText, false, [], []⟩
    (nestsWithin_of_reached (show openText ∈ [openText, first, last] from List.mem_cons_self)
      (by decide +kernel))).2.2.2

/-- The file `a` holds an array with the file `a`. -/
def loopEnv : ParserEnv where
  openStream := fun name => if name = lit "a" then some (lit "\x7b!a\x7d") else none
  strToD := fun _ => none

def loopText : IStream := IStream.ofText (lit "\x7b!a\x7d")

def Loops : Call → Prop
  | .importAny st => st.stream = loopText
  | .includeAny url _ => url = lit "a"
  | .sequence _ pending _ _ st =>
    pending = none ∧ st.stream = (AnythingToken.read loopText).2

private theorem loopTokens :
    (AnythingToken.read loopText).1.token = .char (ch '\x7b') ∧
      (AnythingToken.read (AnythingToken.read loopText).2).1 = ⟨.eInclude, lit "a"⟩ := by
  decide +kernel

private theorem loopInclude {pending : Option AnythingToken}
    (before : pending = none ∧ st.stream = (AnythingToken.read loopText).2) :
    includeInside (turnToken pending st).1 (turnToken pending st).2 =
      some (lit "a", st.token.2) := by
  obtain ⟨rfl, here⟩ := before
  have token : st.token.1 = ⟨.eInclude, lit "a"⟩ := by
    change (AnythingToken.read st.stream).1 = _
    rw [here]
    exact loopTokens.2
  unfold turnToken includeInside
  dsimp only
  rw [token]

theorem not_returns_of_loops {mem : StringEnv} {call : Call} {result : call.Result}
    (returns : Returns loopEnv mem call result) : ¬ Loops call := by
  induction returns with
  | lastTurn includeAny sequence stored included inside last includeLoops =>
    intro before
    exact includeLoops _ _ (loopInclude before) rfl
  | turn includeAny sequence stored included inside goesOn rest includeLoops =>
    intro before
    exact includeLoops _ _ (loopInclude before) rfl
  | @includeAny url st imported inside importLoops =>
    intro named
    obtain rfl : url = lit "a" := named
    have opened : includedText loopEnv (lit "a") = some (lit "\x7b!a\x7d") := by
      decide +kernel
    refine importLoops { st with stream := loopText } ?_ rfl
    unfold includeStart
    rw [opened]
    rfl
  | @importAny st sequence readable stored inside sequenceLoops =>
    intro here
    obtain ⟨stream, erange, heap, xrefs⟩ := st
    obtain rfl : stream = loopText := here
    exact sequenceLoops loopTokens.1 ⟨rfl, rfl⟩
  | @unreadable st failed =>
    intro here
    rw [show st.stream = loopText from here] at failed
    cases failed

/-- A file that includes itself is included for ever. -/
theorem not_import_returns :
    ¬ ∃ result, Returns loopEnv StringRep.exactEnv (.importAny ⟨loopText, false, [], []⟩) result := by
  rintro ⟨result, returns⟩
  exact not_returns_of_loops returns rfl

end Coast
