import Coast.Base.AnyRegion
import Coast.Base.NumberHistory
import Coast.Base.SlotCleaner

/-!
# What the slot finder reads of a path

`SlotFinder::IntOperate` splits a path at the index delimiters first and the
parts at the slot delimiters.  For a joined path that comes to one token after
the other.
-/

namespace Coast

open List Option

namespace SlotFinder

def number (digits : Bytes) : Int := (asLong digits (-1)).1.toInt

/-- Go to the slot of a token that has another one behind it.  A key in
front of an index is not looked for in the loop over the tokens. -/
def enter (st : SlotFinder) : PathToken → PathToken → SlotFinder
  | .key k, .key _ =>
    (if st.heap.findIndex st.dest k 0 0 = none ∨ st.value (atKey k) = none then
      st.makeArray (atKey k)
    else st).descend (atKey k)
  | .key k, .index _ => st.into (atKey k)
  | .index digits, _ => st.into (atIndex (number digits))

def enterAll : List PathToken → SlotFinder → SlotFinder
  | token :: next :: tokens, st =>
    enterAll (next :: tokens) (st.enter token next)
  | _, st => st

def named (st : SlotFinder) (destSlotname : Bytes) (destIdx : Int) : SlotFinder :=
  { st with destSlotname := destSlotname, destIdx := destIdx }

/-- What the reference parameters say about the last token. -/
def Ends (destSlotname : Bytes) (destIdx : Int) : PathToken → Prop
  | .key k => destSlotname = k
  | .index digits => destSlotname = [] ∧ destIdx = number digits

variable {delim indexdelim : Byte}

section

variable (st : SlotFinder) (destSlotname : Bytes) (destIdx : Int)

theorem assign_named (access : Access) (any : Handle) :
    (st.named destSlotname destIdx).assign access any =
      (st.assign access any).named destSlotname destIdx := by
  cases found : (access st.heap st.dest).2.2 with
  | none =>
    simp only [assign, named, found]
    rfl
  | some ref =>
    simp only [assign, named, found]
    rfl

theorem makeArray_named (access : Access) :
    (st.named destSlotname destIdx).makeArray access =
      (st.makeArray access).named destSlotname destIdx :=
  assign_named { st with heap := st.heap ++ [AnyImpl.array []] }
    destSlotname destIdx access (some st.heap.length)

theorem into_named (access : Access) :
    (st.named destSlotname destIdx).into access = (st.into access).named destSlotname destIdx := by
  rw [into, into]
  change (if st.value access = none then
    ((st.touch access).named destSlotname destIdx).makeArray access
    else (st.touch access).named destSlotname destIdx).descend access = _
  by_cases null : st.value access = none
  · rw [if_pos null, if_pos null, makeArray_named]
    rfl
  · rw [if_neg null, if_neg null]
    rfl

theorem enter_named (token next : PathToken) :
    (st.named destSlotname destIdx).enter token next =
      (st.enter token next).named destSlotname destIdx := by
  cases token with
  | index digits => exact into_named st destSlotname destIdx _
  | key k =>
    cases next with
    | index digits => exact into_named st destSlotname destIdx _
    | key k' =>
      rw [enter, enter]
      change (if st.heap.findIndex st.dest k 0 0 = none ∨ st.value (atKey k) = none then
        (st.named destSlotname destIdx).makeArray (atKey k)
        else st.named destSlotname destIdx).descend (atKey k) = _
      by_cases missing : st.heap.findIndex st.dest k 0 0 = none ∨ st.value (atKey k) = none
      · rw [if_pos missing, if_pos missing, makeArray_named]
        rfl
      · rw [if_neg missing, if_neg missing]
        rfl

theorem enterAll_named (tokens : List PathToken) :
    enterAll tokens (st.named destSlotname destIdx) =
      (enterAll tokens st).named destSlotname destIdx := by
  induction tokens generalizing st with
  | nil => rfl
  | cons token tokens ih =>
    cases tokens with
    | nil => rfl
    | cons next tokens =>
      rw [enterAll, enterAll, enter_named, ih]

end

theorem tokenize_names {names : List Bytes} {name : Bytes}
    (free : ∀ other ∈ name :: names, delim ∉ other) :
    tokenize delim
        (name ++ tokensText delim indexdelim (names.map .key)) =
      name :: names := by
  induction names generalizing name with
  | nil =>
    rw [map_nil, show tokensText delim indexdelim [] = [] from rfl, append_nil]
    exact tokenize_single (free name mem_cons_self)
  | cons next names ih =>
    have later := ih (forall_mem_cons.mp free).2
    change tokenize delim (name ++ delim ::
      (next ++ tokensText delim indexdelim (names.map .key))) = _
    rw [tokenize_append, tokenize_single (free name mem_cons_self), later]
    rfl

theorem walkTokens_names (name : Bytes) (names : List Bytes) (st : SlotFinder) :
    walkTokens (name :: names) st = (true,
      { enterAll ((name :: names).map .key) st with
        destSlotname := (name :: names).getLast (cons_ne_nil _ _) }) := by
  induction names generalizing name st with
  | nil => rfl
  | cons next names ih =>
    rw [walkTokens, ih, getLast_cons (cons_ne_nil next names)]
    rfl

/-! ## The whole path -/

theorem joinTokens_keys_free (delims : Delimiters delim indexdelim) {keys : List Bytes}
    (proper : ∀ key ∈ keys, (PathToken.key key).Proper delim indexdelim) :
    indexdelim ∉ joinTokens delim indexdelim (keys.map .key) := by
  intro member
  have all := (joinTokens_suffix (keys.map .key)).subset member
  rcases mem_flatMap.mp all with ⟨token, among, inside⟩
  rcases mem_map.mp among with ⟨key, known, rfl⟩
  rcases mem_cons.mp inside with same | inKey
  · exact delims.different same.symm
  · exact (proper key known).2.2.2 inKey

theorem intOperate_keys (delims : Delimiters delim indexdelim) (name : Bytes) (names : List Bytes)
    (proper : ∀ key ∈ name :: names, (PathToken.key key).Proper delim indexdelim)
    (fuel : Nat) (st : SlotFinder) (destIdx : Int) :
    intOperate delim indexdelim (fuel + 1) (st.named
        (joinTokens delim indexdelim ((name :: names).map .key)) destIdx) =
      (true, (enterAll ((name :: names).map .key) st).named
        ((name :: names).getLast (cons_ne_nil _ _)) destIdx) := by
  have free := joinTokens_keys_free delims proper
  have none' : (st.named (joinTokens delim indexdelim
      ((name :: names).map .key)) destIdx).destSlotname.idxOf? indexdelim = none :=
    idxOf?_eq_none_iff.mpr free
  have whole : stringTokens delim (joinTokens delim indexdelim
      ((name :: names).map .key)) = name :: names := by
    have nulFree : NulFree (joinTokens delim indexdelim ((name :: names).map .key)) := by
      apply nulFree_joinTokens delims
      intro token member
      rcases mem_map.mp member with ⟨key, known, rfl⟩
      exact proper key known
    have some' : joinTokens delim indexdelim ((name :: names).map .key) ≠ [] := by
      exact append_ne_nil_of_left_ne_nil (proper name mem_cons_self).1 _
    rw [stringTokens, cstr_of_nulFree nulFree, if_neg some']
    exact tokenize_names fun key known => (proper key known).2.2.1
  rw [intOperate, none']
  show walkTokens (stringTokens delim (joinTokens delim indexdelim ((name :: names).map .key))) _
    = _
  rw [whole, walkTokens_names, enterAll_named]
  rfl

theorem exists_keys (tokens : List PathToken) :
    ∃ (keys : List Bytes) (rest : List PathToken), tokens = keys.map .key ++ rest ∧
        (rest = [] ∨ ∃ digits more, rest = .index digits :: more) := by
  induction tokens with
  | nil => exact ⟨[], [], rfl, .inl rfl⟩
  | cons token tokens ih =>
    cases token with
    | index digits => exact ⟨[], _, rfl, .inr ⟨digits, tokens, rfl⟩⟩
    | key name =>
      rcases ih with ⟨keys, rest, split, ends⟩
      refine ⟨name :: keys, rest, ?_, ends⟩
      rw [split]
      rfl

theorem readIndex_digits (delims : Delimiters delim indexdelim) {digits : Bytes}
    (proper : (PathToken.index digits).Proper delim indexdelim)
    (tokens : List PathToken) (st : SlotFinder) (destIdx : Int) :
    readIndex delim indexdelim (st.named
        (digits ++ tokensText delim indexdelim tokens) destIdx) =
      st.named (joinTokens delim indexdelim tokens) (number digits) := by
  have word : (digits ++ tokensText delim indexdelim tokens).takeWhile
      (fun c => c ≠ delim && c ≠ indexdelim) = digits := by
    have passes : ∀ c ∈ digits, (decide (c ≠ delim) && decide (c ≠ indexdelim)) = true := by
      intro c member
      have other := not_delimiter_of_isdigit delims (proper.2 c member)
      rw [decide_eq_true other.1, decide_eq_true other.2]
      rfl
    rw [takeWhile_append_of_pos passes]
    cases tokens with
    | nil => exact append_nil digits
    | cons token tokens =>
      cases token with
      | key name =>
        change digits ++ (delim :: _).takeWhile _ = digits
        rw [takeWhile_cons_of_neg (by simp), append_nil]
      | index more =>
        change digits ++ (indexdelim :: _).takeWhile _ = digits
        rw [takeWhile_cons_of_neg (by simp), append_nil]
  have trimmed : (if (tokensText delim indexdelim tokens).head? = some delim
      then (tokensText delim indexdelim tokens).tail
      else tokensText delim indexdelim tokens) = joinTokens delim indexdelim tokens := by
    cases tokens with
    | nil => rfl
    | cons token tokens =>
      cases token with
      | key name => exact if_pos rfl
      | index more =>
        exact if_neg fun same =>
          delims.different (Option.some.inj same).symm
  have some' : digits ++ tokensText delim indexdelim tokens ≠ [] :=
    append_ne_nil_of_left_ne_nil proper.1 _
  simp only [readIndex, named, if_neg some', word, drop_left, trimmed]
  rfl

theorem enterAll_keys (name : Bytes) (names : List Bytes)
    (digits : Bytes) (more : List PathToken) (st : SlotFinder) :
    enterAll ((name :: names).map .key ++ .index digits :: more) st =
      enterAll (.index digits :: more)
        ((enterAll ((name :: names).map .key) st).into
          (atKey ((name :: names).getLast (cons_ne_nil _ _)))) := by
  induction names generalizing name st with
  | nil => rfl
  | cons next names ih =>
    rw [getLast_cons (cons_ne_nil next names)]
    exact ih next (st.enter (.key name) (.key next))

theorem joinTokens_index (keys : List Bytes) (digits : Bytes) (more : List PathToken) :
    joinTokens delim indexdelim (keys.map .key ++ .index digits :: more) =
      joinTokens delim indexdelim (keys.map .key) ++
        indexdelim :: (digits ++ tokensText delim indexdelim more) := by
  have whole : tokensText delim indexdelim
      (keys.map .key ++ .index digits :: more) = tokensText delim indexdelim (keys.map .key) ++
          indexdelim :: (digits ++ tokensText delim indexdelim more) := by
    rw [tokensText, flatMap_append, flatMap_cons]
    rfl
  cases keys with
  | nil => exact whole
  | cons name names => exact (List.cons.inj whole).2

theorem idxOf_append {s : Bytes} (free : indexdelim ∉ s) (rest : Bytes) :
    (s ++ indexdelim :: rest).idxOf? indexdelim = some s.length := by
  induction s with
  | nil =>
    rw [nil_append, idxOf?_cons, if_pos (beq_self_eq_true _)]
    rfl
  | cons c s ih =>
    rw [mem_cons, not_or] at free
    have other : ¬(c == indexdelim) = true := fun same =>
      free.1 (beq_iff_eq.mp same).symm
    rw [cons_append, idxOf?_cons, if_neg other, ih free.2]
    rfl

/-- A segment with an index is walked in two steps. -/
theorem intOperate_index {s rest : Bytes} (free : indexdelim ∉ s)
    {st entered : SlotFinder} {fuel : Nat} {destIdx : Int} (name : Bytes) (i : Int)
    (before : (if s = [] then st.named (s ++ indexdelim :: rest) destIdx
      else if (intOperate delim indexdelim fuel (st.named s destIdx)).1 then
        (intOperate delim indexdelim fuel (st.named s destIdx)).2.into
          (atKey (intOperate delim indexdelim fuel (st.named s destIdx)).2.destSlotname)
      else (intOperate delim indexdelim fuel (st.named s destIdx)).2) = entered.named name i)
    {more : List PathToken} {n : Int}
    (read : readIndex delim indexdelim (entered.named rest i) =
      entered.named (joinTokens delim indexdelim more) n) :
    intOperate delim indexdelim (fuel + 1)
        (st.named (s ++ indexdelim :: rest) destIdx) =
      if joinTokens delim indexdelim more = [] then
        (true, entered.named [] n)
      else intOperate delim indexdelim fuel
        ((entered.into (atIndex n)).named (joinTokens delim indexdelim more) n) := by
  have place : (st.named (s ++ indexdelim :: rest)
      destIdx).destSlotname.idxOf? indexdelim = some s.length :=
    idxOf_append free rest
  have taken : (s ++ indexdelim :: rest).take s.length = s := take_left
  have dropped : (s ++ indexdelim :: rest).drop (s.length + 1) = rest := by
    rw [← drop_drop, drop_left]
    rfl
  have shape : ∀ front : SlotFinder, (if s = [] then st.named (s ++ indexdelim :: rest) destIdx
        else if (intOperate delim indexdelim fuel (st.named s destIdx)).1 then
          (intOperate delim indexdelim fuel (st.named s destIdx)).2.into
            (atKey (intOperate delim indexdelim fuel (st.named s destIdx)).2.destSlotname)
        else (intOperate delim indexdelim fuel (st.named s destIdx)).2) = front →
      intOperate delim indexdelim (fuel + 1)
          (st.named (s ++ indexdelim :: rest) destIdx) =
        if (readIndex delim indexdelim (front.named rest front.destIdx)
            ).destSlotname = [] then
          (true, readIndex delim indexdelim (front.named rest front.destIdx))
        else intOperate delim indexdelim fuel
          ((readIndex delim indexdelim (front.named rest front.destIdx)).into
            (atIndex (readIndex delim indexdelim (front.named rest front.destIdx)).destIdx)) := by
    rintro _ rfl
    rw [intOperate, place]
    dsimp only [named]
    rw [taken, dropped]
    rfl
  rw [shape _ before]
  change (if (readIndex delim indexdelim (entered.named rest i)
    ).destSlotname = [] then (true, readIndex delim indexdelim
      (entered.named rest i)) else intOperate delim indexdelim fuel
        ((readIndex delim indexdelim (entered.named rest i)).into
          (atIndex (readIndex delim indexdelim (entered.named rest i)).destIdx))) = _
  rw [read, into_named]
  change (if joinTokens delim indexdelim more = [] then _ else _) = _
  by_cases last : joinTokens delim indexdelim more = []
  · rw [if_pos last, if_pos last, last]
  · rw [if_neg last, if_neg last]
    rfl

theorem front (delims : Delimiters delim indexdelim) {keys : List Bytes}
    (proper : ∀ key ∈ keys, (PathToken.key key).Proper delim indexdelim) {digits : Bytes}
    (isIndex : (PathToken.index digits).Proper delim indexdelim) (more : List PathToken)
    (st : SlotFinder) (fuel : Nat) (enough : keys ≠ [] → 0 < fuel) (destIdx : Int) :
    ∃ entered : SlotFinder, enterAll (keys.map .key ++ .index digits :: more) st =
        enterAll (.index digits :: more) entered ∧
      intOperate delim indexdelim (fuel + 1) (st.named (joinTokens delim
          indexdelim (keys.map .key ++ .index digits :: more)) destIdx) =
        if joinTokens delim indexdelim more = [] then
          (true, entered.named [] (number digits))
        else intOperate delim indexdelim fuel
          ((entered.into (atIndex (number digits))).named
            (joinTokens delim indexdelim more) (number digits)) := by
  have free := joinTokens_keys_free delims proper
  rw [joinTokens_index]
  cases keys with
  | nil =>
    exact ⟨st, rfl, intOperate_index free _ destIdx rfl
      (readIndex_digits delims isIndex more st destIdx)⟩
  | cons name names =>
    cases fuel with
    | zero => exact absurd (enough (cons_ne_nil _ _)) (by decide)
    | succ fuel =>
      have some' : joinTokens delim indexdelim
          ((name :: names).map .key) ≠ [] :=
        append_ne_nil_of_left_ne_nil (proper name mem_cons_self).1 _
      refine ⟨_, enterAll_keys name names digits more st,
        intOperate_index free ((name :: names).getLast (cons_ne_nil _ _)) destIdx ?_
          (readIndex_digits delims isIndex more _ destIdx)⟩
      rw [if_neg some', intOperate_keys delims name names proper, if_pos rfl]
      exact into_named _ _ destIdx _

/-- The tokens of the path are entered one after the other: by induction on
the number of tokens, with the keys up to an index taken together. -/
theorem intOperate_joinTokens (delims : Delimiters delim indexdelim) (count : Nat) :
    ∀ (tokens : List PathToken) (last : PathToken), tokens.length ≤ count →
      tokens.getLast? = some last →
      (∀ token ∈ tokens, token.Proper delim indexdelim) →
      ∀ (fuel : Nat) (st : SlotFinder) (destIdx : Int), tokens.length < fuel →
        ∃ destSlotname' destIdx', intOperate delim indexdelim fuel
              (st.named (joinTokens delim indexdelim tokens) destIdx) =
            (true, (enterAll tokens st).named destSlotname' destIdx') ∧
          Ends destSlotname' destIdx' last := by
  induction count with
  | zero =>
    intro tokens last few isLast
    rw [length_eq_zero_iff.mp (Nat.le_zero.mp few)] at isLast
    cases isLast
  | succ count ih =>
    intro tokens last few isLast proper fuel st destIdx enough
    cases fuel with
    | zero => exact absurd enough (Nat.not_lt_zero _)
    | succ fuel =>
      rcases exists_keys tokens with ⟨keys, rest, split, ends⟩
      rcases ends with rfl | ⟨digits, more, rfl⟩
      · -- keys alone
        rw [append_nil] at split
        subst split
        cases keys with
        | nil => cases isLast
        | cons name names =>
          refine ⟨_, _, intOperate_keys delims name names
            (fun key known => proper _ (mem_map_of_mem known))
            fuel st destIdx, ?_⟩
          rw [getLast?_map, getLast?_eq_getLast_of_ne_nil (cons_ne_nil name names)] at isLast
          cases isLast
          rfl
      · -- the keys in front of the first index, and what is behind it
        subst split
        have isIndex : (PathToken.index digits).Proper delim indexdelim :=
          proper _ (mem_append_right _ mem_cons_self)
        have later : ∀ token ∈ more, PathToken.Proper delim indexdelim token := fun token member =>
          proper token (mem_append_right _ (mem_cons_of_mem _ member))
        rw [length_append, length_cons] at few enough
        rcases front delims (fun key known => proper _
            (mem_append_left _ (mem_map_of_mem known)))
          isIndex more st fuel (fun some' => by
            have positive := length_pos_of_ne_nil some'
            rw [length_map] at enough
            omega) destIdx with ⟨entered, starts, whole⟩
        rw [starts, whole]
        rw [getLast?_append_of_ne_nil _ (cons_ne_nil _ _)] at isLast
        cases more with
        | nil =>
          cases isLast
          exact ⟨[], number digits, if_pos rfl, rfl, rfl⟩
        | cons next more =>
          rw [getLast?_cons_cons] at isLast
          have some' := joinTokens_ne_nil (cons_ne_nil next more) later
          rw [if_neg some', enterAll]
          exact ih (next :: more) last (by omega) isLast later fuel _ (number digits) (by omega)

/-! ## Slots that are there -/

def stepAccess : SlotStep → Access
  | .key k => atKey k
  | .index i => atIndex i

end SlotFinder

def SlotStep.indexIn (slots : Slots Handle) : SlotStep → Option Nat
  | key name => slots.findIndex name
  | index i => if i < slots.length then some i else none

theorem SlotStep.indexIn_lt {slots : Slots Handle} {step : SlotStep} {i : Nat}
    (known : step.indexIn slots = some i) : i < slots.length := by
  cases step with
  | key name => exact Slots.findIndex_lt known
  | index n =>
    rw [indexIn] at known
    split at known
    · cases known
      assumption
    · cases known

namespace SlotFinder

open Heap

variable {heap : Heap} {place : Nat} {slots : Slots Handle}

theorem doGetAt_array (found : heap[place]? = some (AnyImpl.array slots)) (i : Nat) :
    AnythingLookup.doGetAt heap (some place) i = slot slots i := by
  rw [AnythingLookup.doGetAt, impl, bind_some, found]
  rfl

theorem findOrAt_array (found : heap[place]? = some (AnyImpl.array slots)) (step : SlotStep) :
    findOrAt heap (some place) step = (step.indexIn slots).map (slot slots) := by
  cases step with
  | key name =>
    rw [findOrAt, findIndex_array found, SlotStep.indexIn]
    congr 1
    funext i
    exact doGetAt_array found i
  | index i =>
    rw [findOrAt, getSize_array found, SlotStep.indexIn, doGetAt_array found]
    split
    · rfl
    · rfl

variable {step : SlotStep}

theorem access_array (found : heap[place]? = some (AnyImpl.array slots))
    {i : Nat} (known : step.indexIn slots = some i) :
    stepAccess step heap (some place) = (heap, some place, some ⟨place, i⟩) := by
  have inside := SlotStep.indexIn_lt known
  cases step with
  | key name =>
    have known' : slots.findIndex name = some i := known
    rw [stepAccess, atKey, doAtKey_array found, known']
  | index n =>
    rw [SlotStep.indexIn] at known
    split at known
    · cases known
      rw [stepAccess, atIndex, doAt_array found, update_self found (Slots.at_of_lt inside)]
    · cases known

variable {next : Handle}

theorem access_leaf {any : Handle}
    (leaf : heap.isArray any = false) (found : findOrAt heap any step = some next) :
    step = .index 0 ∧ next = any ∧ stepAccess step heap any = (heap, any, none) := by
  cases step with
  | key name =>
    rcases map_eq_some_iff.mp found with ⟨i, known, -⟩
    rw [isArray_of_findIndex known] at leaf
    cases leaf
  | index i =>
    rw [findOrAt] at found
    split at found
    · rename_i inside
      cases found
      rw [getSize] at inside
      rw [isArray] at leaf
      cases here : heap.impl any with
      | none =>
        rw [here] at inside
        exact absurd inside (Nat.not_lt_zero i)
      | some impl =>
        have notNull : any ≠ none := by
          rintro rfl
          cases here
        cases impl with
        | array slots =>
          rw [here] at leaf
          cases leaf
        | _ =>
          rw [here] at inside
          have first : i = 0 := Nat.lt_one_iff.mp inside
          subst first
          refine ⟨rfl, ?_, ?_⟩
          · rw [AnythingLookup.doGetAt, here]
          · rw [stepAccess, atIndex, doAt,
              if_neg (not_or.mpr ⟨by decide, notNull⟩), doGetAt, isArray, here]
            rfl
    · cases found

theorem access_found {any : Handle}
    (found : findOrAt heap any step = some next) (destSlotname : Bytes) (destIdx : Int) :
    (SlotFinder.mk heap any destSlotname destIdx).touch (stepAccess step) =
        ⟨heap, any, destSlotname, destIdx⟩ ∧
      (SlotFinder.mk heap any destSlotname destIdx).value (stepAccess step) = next := by
  cases array : heap.isArray any with
  | true =>
    rcases isArray_iff.mp array with ⟨place, slots, rfl, here⟩
    rw [findOrAt_array here] at found
    rcases map_eq_some_iff.mp found with ⟨i, known, rfl⟩
    rw [touch, value, access_array here known]
    exact ⟨rfl, congrArg (slot · i) (arrayAt_of here)⟩
  | false =>
    rcases access_leaf array found with ⟨-, rfl, accessed⟩
    rw [touch, value, accessed]
    exact ⟨rfl, rfl⟩

theorem number_eq {digits : Bytes} (proper : (PathToken.index digits).Proper delim indexdelim)
    (bounded : (PathToken.index digits).Bounded) :
    number digits = digitsValue 10 digits := by
  rw [number, asLong_digits proper.1 proper.2 bounded]
  exact Int64.toInt_ofNat_of_lt bounded

theorem into_found (st : SlotFinder)
    (found : findOrAt st.heap st.dest step = some next) (notNull : next ≠ none) :
    st.into (stepAccess step) = { st with dest := next } := by
  have accessed := access_found found st.destSlotname st.destIdx
  have touched : st.touch (stepAccess step) = st := accessed.1
  have valued : st.value (stepAccess step) = next := accessed.2
  rw [into, valued, if_neg notNull, descend, touched, touched, valued]

theorem enter_found (st : SlotFinder) {token : PathToken} (proper : token.Proper delim indexdelim)
    (bounded : token.Bounded) (found : findOrAt st.heap st.dest token.step = some next)
    (notNull : next ≠ none) (other : PathToken) :
    st.enter token other = { st with dest := next } := by
  cases token with
  | index digits =>
    rw [enter, number_eq proper bounded]
    exact into_found st found notNull
  | key name =>
    have entered : st.into (atKey name) = { st with dest := next } := into_found st found notNull
    cases other with
    | index digits => exact entered
    | key name' =>
      rcases map_eq_some_iff.mp found with ⟨i, known, -⟩
      have accessed := access_found found st.destSlotname st.destIdx
      have touched : st.touch (atKey name) = st := accessed.1
      have valued : st.value (atKey name) = next := accessed.2
      have there : ¬(st.heap.findIndex st.dest name 0 0 = none ∨ st.value (atKey name) = none) := by
        rw [known, valued]
        exact not_or.mpr ⟨nofun, notNull⟩
      rw [enter, if_neg there, descend, touched, valued]

theorem findOrAt_of_defined {any : Handle} (found : findOrAtDefined heap any step = some next) :
    findOrAt heap any step = some next := by
  cases step with
  | key name => exact found
  | index i => exact (filter_eq_some_iff.mp found).1

theorem findOrAtDefined_none (step : SlotStep) : findOrAtDefined heap none step = none := by
  cases step with
  | key name => rfl
  | index i => rfl

theorem enterAll_found {tokens : List PathToken} {last : PathToken}
    (proper : ∀ token ∈ tokens, token.Proper delim indexdelim)
    (bounded : ∀ token ∈ tokens, token.Bounded) (st : SlotFinder) {c : Handle}
    (found : PartialSteps.follow (findOrAtDefined st.heap) st.dest
      ((tokens ++ [last]).map PathToken.step) = some c) :
    ∃ parent, PartialSteps.follow (findOrAtDefined st.heap) st.dest
        (tokens.map PathToken.step) = some parent ∧
      findOrAtDefined st.heap parent last.step = some c ∧
      enterAll (tokens ++ [last]) st = { st with dest := parent } := by
  induction tokens generalizing st with
  | nil =>
    rcases bind_eq_some_iff.mp found with ⟨next, there, same⟩
    cases same
    exact ⟨st.dest, rfl, there, rfl⟩
  | cons token tokens ih =>
    rcases bind_eq_some_iff.mp found with ⟨next, there, later⟩
    have notNull : next ≠ none := by
      rintro rfl
      cases tokens with
      | nil =>
        rcases bind_eq_some_iff.mp later with ⟨other, none', -⟩
        rw [findOrAtDefined_none] at none'
        cases none'
      | cons token' tokens =>
        rcases bind_eq_some_iff.mp later with ⟨other, none', -⟩
        rw [findOrAtDefined_none] at none'
        cases none'
    have entered := fun other => enter_found st (proper token mem_cons_self)
      (bounded token mem_cons_self) (findOrAt_of_defined there) notNull other
    rcases ih (forall_mem_cons.mp proper).2 (forall_mem_cons.mp bounded).2
      { st with dest := next } later with ⟨parent, path, here, whole⟩
    refine ⟨parent, ?_, here, ?_⟩
    · rw [map_cons, PartialSteps.follow, there]
      exact path
    · rw [← whole]
      cases tokens with
      | nil => exact congrArg (enterAll _) (entered _)
      | cons token' tokens => exact congrArg (enterAll _) (entered _)

end SlotFinder

end Coast
