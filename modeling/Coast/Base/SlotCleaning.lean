import Coast.Base.SlotFinding

/-!
# What the slot cleaner removes

`LookupPath` decides whether the path leads to a slot, `IntOperate` finds the
array that has it.  They agree, and no slot is made on the way.
-/

namespace Coast

open PartialSteps Heap List

variable {delim indexdelim : Byte}

/-- A number behind an index delimiter fits into a `long`. -/
def IndicesBounded (indexdelim : Byte) (path : Bytes) : Prop :=
  ∀ front digits rest, path = front ++ indexdelim :: (digits ++ rest) →
    (∀ c ∈ digits, isdigit c = true) → digitsValue 10 digits < 2 ^ 63

theorem IndicesBounded.behind {front text : Bytes}
    (bounded : IndicesBounded indexdelim (front ++ text)) :
    IndicesBounded indexdelim text := by
  rintro before digits rest rfl all
  exact bounded (front ++ before) digits rest (append_assoc ..).symm all

theorem IndicesBounded.token {token : PathToken} (proper : token.Proper delim indexdelim)
    {rest : Bytes} (bounded : IndicesBounded indexdelim (token.text delim indexdelim ++ rest)) :
    token.Bounded := by
  cases token with
  | key name => trivial
  | index digits => exact bounded [] digits rest rfl proper.2

theorem IndicesBounded.tokensText {tokens : List PathToken}
    (proper : ∀ token ∈ tokens, token.Proper delim indexdelim)
    (bounded : IndicesBounded indexdelim (tokensText delim indexdelim tokens)) :
    ∀ token ∈ tokens, token.Bounded := by
  induction tokens with
  | nil => nofun
  | cons first tokens ih =>
    intro token member
    rcases mem_cons.mp member with rfl | later
    · exact bounded.token (proper token mem_cons_self)
    · exact ih (forall_mem_cons.mp proper).2 bounded.behind token later

theorem IndicesBounded.joinTokens {tokens : List PathToken}
    (proper : ∀ token ∈ tokens, token.Proper delim indexdelim)
    (bounded : IndicesBounded indexdelim (joinTokens delim indexdelim tokens)) :
    ∀ token ∈ tokens, token.Bounded := by
  cases tokens with
  | nil => nofun
  | cons first tokens =>
    cases first with
    | index digits => exact IndicesBounded.tokensText proper bounded
    | key name =>
      intro token member
      rcases mem_cons.mp member with rfl | later
      · trivial
      · exact IndicesBounded.tokensText
          (forall_mem_cons.mp proper).2
          bounded.behind token later

theorem access_heap (heap : Heap) (c : Handle) {step : LookupStep}
    (positive : ∀ lIdx, step = .index lIdx → 0 ≤ lIdx.toInt) :
    (AnythingLookup.access heap c step).1 = heap := by
  cases step with
  | key tokPtr keylen hash => rfl
  | index lIdx =>
    have start := positive lIdx rfl
    rw [AnythingLookup.access]
    split
    · rfl
    · rename_i inside
      have same : (AnythingLookup.at_ heap c lIdx.toInt).1 = heap := by
        rw [AnythingLookup.at_]
        rw [getSize] at inside
        cases found : heap.impl c with
        | none => rfl
        | some impl =>
          rw [found] at inside
          cases impl with
          | array slots =>
            dsimp only at inside ⊢
            rw [if_pos (by omega)]
          | _ => rfl
      dsimp only
      split
      · exact same
      · exact same

theorem lookupLoop_heap (delims : Delimiters delim indexdelim) (fuel : Nat)
    {heap : Heap} {c : Handle} {text : Bytes} (nulFree : NulFree text)
    (bounded : IndicesBounded indexdelim text) :
    (lookupLoop delim indexdelim AnythingLookup.access fuel heap c text).1 = heap := by
  induction fuel generalizing c text with
  | zero => rfl
  | succ fuel ih =>
    rw [lookupLoop]
    cases scanned : scanStep delim indexdelim text with
    | none => rfl
    | some result =>
      rcases result with ⟨step, rest⟩
      rcases scanStep_tokenOf delims nulFree scanned with ⟨token, proper, rfl, -, split⟩
      have behind : ∃ front, text = front ++ rest := by
        rcases split with same | ⟨name, -, same⟩
        · exact ⟨_, same⟩
        · exact ⟨_, same⟩
      have positive : ∀ lIdx, token.scanned rest = .index lIdx → 0 ≤ lIdx.toInt := by
        intro lIdx isIndex
        cases token with
        | key name => cases isIndex
        | index digits =>
          cases isIndex
          rcases split with rfl | ⟨name, other, -⟩
          · rw [lookupNumber_digits proper.2, Int64.toInt_ofNat_of_lt (bounded.token proper)]
            exact Int.natCast_nonneg _
          · cases other
      have kept := access_heap heap c positive
      dsimp only
      cases accessed : AnythingLookup.access heap c (token.scanned rest) with
      | mk heap' next =>
        rw [accessed] at kept
        cases kept
        cases next with
        | none => rfl
        | some next =>
          rcases behind with ⟨front, rfl⟩
          have free : NulFree rest := fun member =>
            nulFree (mem_append_right front member)
          dsimp only
          split
          · rfl
          · exact ih free bounded.behind

theorem lookupPath_heap (delims : Delimiters delim indexdelim) (heap : Heap) (any : Handle)
    {path : Bytes} (nulFree : NulFree path) (bounded : IndicesBounded indexdelim path) :
    (Anything.lookupPath heap any path delim indexdelim).1 = heap := by
  rw [Anything.lookupPath, lookupWith, cstr_of_nulFree nulFree]
  split
  · rfl
  · split
    · rfl
    · exact lookupLoop_heap delims _ nulFree bounded

theorem hashesKnown_of_scanned {tokens : List PathToken}
    (known : ∀ text keylen, .key text keylen 0 ∉ (scannedTokens delim indexdelim tokens).dropLast) :
    HashesKnown (tokens.map PathToken.step) := by
  induction tokens with
  | nil => nofun
  | cons token tokens ih =>
    cases tokens with
    | nil => nofun
    | cons next tokens =>
      intro step member
      rcases mem_cons.mp member with rfl | later
      · cases token with
        | key name =>
          intro zero
          have first := known (name ++ tokensText delim indexdelim (next :: tokens)) name.length
          rw [← zero] at first
          exact first mem_cons_self
        | index digits => trivial
      · exact ih (fun text keylen among =>
          known text keylen (mem_cons_of_mem _ among)) step later

theorem getLast?_scannedTokens (tokens : List PathToken) (last : PathToken) :
    (scannedTokens delim indexdelim (tokens ++ [last])).getLast? = some (last.scanned []) := by
  induction tokens with
  | nil => rfl
  | cons token tokens ih =>
    rw [cons_append, scannedTokens, getLast?_cons, ih]
    rfl

/-! ## The slot that is removed -/

/-- The steps in front of the last one lead to an Anything. -/
def LeadsTo (delim indexdelim : Byte) (heap : Heap) (dest : Handle) (path : Bytes)
    (parent : Handle) (last : PathToken) : Prop :=
  ∃ tokens, path = joinTokens delim indexdelim (tokens ++ [last]) ∧
    (∀ token ∈ tokens ++ [last], token.Proper delim indexdelim) ∧
    follow (findOrAtDefined heap) dest (tokens.map PathToken.step) = some parent

/-- The path leads to the slot with an index of the array at a place. -/
def Addresses (delim indexdelim : Byte) (heap : Heap) (dest : Handle) (path : Bytes)
    (place i : Nat) : Prop :=
  ∃ last, LeadsTo delim indexdelim heap dest path (some place) last ∧
    last.step.indexIn (heap.arrayAt place) = some i

/-- The last step of the path is an index of a simple value, the value itself. -/
def IntoValue (delim indexdelim : Byte) (heap : Heap) (dest : Handle) (path : Bytes) : Prop :=
  ∃ value digits, LeadsTo delim indexdelim heap dest path value (.index digits) ∧
      heap.isArray value = false ∧ digitsValue 10 digits < heap.getSize value

namespace SlotCleaner

/-- The slot of the path is removed, or the last one of its array when that
has more than so many; a path that leads nowhere changes nothing. -/
def Cleans (few : Nat) (heap : Heap) (dest : Handle) (path : Bytes)
    (removeLast : Bool) (delim indexdelim : Byte) : Prop :=
  match (Anything.lookupPath heap dest path delim indexdelim).2 with
  | none => operate heap dest path removeLast delim indexdelim = heap
  | some c => ∃ place i, Addresses delim indexdelim heap dest path place i ∧
      slot (heap.arrayAt place) i = c ∧
      operate heap dest path removeLast delim indexdelim =
        if removeLast = true ∧ heap.isArray c = true ∧ few < heap.getSize c then
          heap.update (c.getD 0) List.dropLast
        else heap.update place fun slots => slots.eraseIdx i

def removed (heap : Heap) (removeLast : Bool) (parent c : Handle) (step : SlotStep) : Heap :=
  if removeLast && 1 < heap.getSize c then
    heap.remove c ((heap.getSize c - 1 : Nat) : Int)
  else
    match step with
    | .key k => heap.removeKey parent k
    | .index i => heap.remove parent i

theorem operate_slot {heap : Heap} {dest c : Handle} {path : Bytes} {st : SlotFinder}
    {removeLast : Bool} (some' : path ≠ [])
    (found : Anything.lookupPath heap dest path delim indexdelim = (heap, some c))
    (finds : SlotFinder.intOperate delim indexdelim (path.length + 1)
      ⟨heap, dest, path, -1⟩ = (true, st)) :
    operate heap dest path removeLast delim indexdelim =
      if st.destSlotname ≠ [] then
        clean st (SlotFinder.atKey st.destSlotname)
          (fun heap any => heap.removeKey any st.destSlotname) removeLast
      else if st.destIdx ≠ -1 then
        clean st (SlotFinder.atIndex st.destIdx)
          (fun heap any => heap.remove any st.destIdx) removeLast
      else st.heap := by
  rw [operate, if_neg some', found]
  dsimp only
  rw [finds]
  rfl

theorem clean_found {st : SlotFinder} {access : SlotFinder.Access} {c : Handle}
    (accessed : st.touch access = st ∧ st.value access = c)
    (removeSlot : Heap → Handle → Heap) (removeLast : Bool) :
    clean st access removeSlot removeLast =
      if removeLast && 1 < st.heap.getSize c then
        st.heap.remove c ((st.heap.getSize c - 1 : Nat) : Int)
      else removeSlot st.heap st.dest := by
  rw [clean, accessed.1, accessed.2]

theorem operate_found (delims : Delimiters delim indexdelim) {heap : Heap}
    {dest c : Handle} {tokens : List PathToken} {last : PathToken}
    (proper : ∀ token ∈ tokens ++ [last], token.Proper delim indexdelim)
    (bounded : ∀ token ∈ tokens ++ [last], token.Bounded)
    (found : Anything.lookupPath heap dest
      (joinTokens delim indexdelim (tokens ++ [last])) delim indexdelim = (heap, some c))
    (known : HashesKnown ((tokens ++ [last]).map PathToken.step)) (removeLast : Bool) :
    ∃ parent, follow (findOrAtDefined heap) dest (tokens.map PathToken.step) = some parent ∧
      findOrAt heap parent last.step = some c ∧
      operate heap dest (joinTokens delim indexdelim (tokens ++ [last]))
          removeLast delim indexdelim =
        removed heap removeLast parent c last.step := by
  have some' : tokens ++ [last] ≠ [] := append_ne_nil_of_right_ne_nil _ nofun
  have path : follow (findOrAtDefined heap) dest
      ((tokens ++ [last]).map PathToken.step) = some c := by
    rw [← follow_scannedTokens heap proper bounded known,
      ← lookupPath_joinTokens delims heap dest some' proper, found]
  rcases @SlotFinder.enterAll_found delim indexdelim tokens last
    (fun token member => proper token (mem_append_left _ member))
    (fun token member => bounded token (mem_append_left _ member))
    ⟨heap, dest, [], -1⟩ c path with ⟨parent, leads, here, entered⟩
  have there := SlotFinder.findOrAt_of_defined here
  refine ⟨parent, leads, there, ?_⟩
  have enough : (tokens ++ [last]).length <
      (joinTokens delim indexdelim (tokens ++ [last])).length + 1 :=
    Nat.lt_succ_of_le (length_le_joinTokens proper)
  rcases SlotFinder.intOperate_joinTokens delims _ (tokens ++ [last]) last le_rfl
      getLast?_concat proper _ ⟨heap, dest, [], -1⟩ (-1) enough with
    ⟨destSlotname, destIdx, finds, ends⟩
  rw [entered] at finds
  have start : (SlotFinder.mk heap dest [] (-1)).named
      (joinTokens delim indexdelim (tokens ++ [last])) (-1) =
        ⟨heap, dest, joinTokens delim indexdelim (tokens ++ [last]), -1⟩ := rfl
  rw [start] at finds
  have accessed := SlotFinder.access_found there destSlotname destIdx
  rw [operate_slot (joinTokens_ne_nil some' proper) found finds]
  have isProper := proper last (mem_append_right _ mem_cons_self)
  have isBounded := bounded last (mem_append_right _ mem_cons_self)
  cases last with
  | key name =>
    have named : destSlotname = name := ends
    subst named
    exact (if_pos isProper.1).trans (clean_found accessed _ removeLast)
  | index digits =>
    rcases ends with ⟨rfl, rfl⟩
    rw [SlotFinder.number_eq isProper isBounded] at accessed ⊢
    have positive : (digitsValue 10 digits : Int) ≠ -1 := by omega
    exact (if_neg (not_not.mpr rfl)).trans
      ((if_pos positive).trans (clean_found accessed _ removeLast))

theorem remove_array {heap : Heap} {place : Nat} {slots : Slots Handle}
    (found : heap[place]? = some (.array slots)) (i : Nat) :
    heap.remove (some place) i = heap.update place fun slots => slots.eraseIdx i := by
  rw [Heap.remove, if_pos (isArray_array found)]
  apply update_congr found
  rw [Slots.remove, if_pos (Int.natCast_nonneg i), Int.toNat_natCast]

theorem removed_array {heap : Heap} {place i : Nat} {c : Handle} {step : SlotStep}
    (array : heap.isArray (some place) = true)
    (known : step.indexIn (heap.arrayAt place) = some i) (removeLast : Bool) :
    removed heap removeLast (some place) c step =
      if removeLast = true ∧ heap.isArray c = true ∧ 1 < heap.getSize c then
        heap.update (c.getD 0) List.dropLast
      else heap.update place fun slots => slots.eraseIdx i := by
  rcases isArray_iff.mp array with ⟨_, slots, same, found⟩
  cases same
  rw [arrayAt_of found] at known
  have only : (removeLast && decide (1 < heap.getSize c)) = true ↔
      removeLast = true ∧ heap.isArray c = true ∧ 1 < heap.getSize c := by
    rw [Bool.and_eq_true, decide_eq_true_iff]
    refine and_congr_right fun _ => (and_iff_right_of_imp fun large => ?_).symm
    rw [getSize] at large
    rw [isArray]
    cases here : heap.impl c with
    | none => simp [here] at large
    | some impl => cases impl <;> simp [here] at large ⊢
  rw [removed.eq_def]
  by_cases last : removeLast = true ∧ heap.isArray c = true ∧ 1 < heap.getSize c
  · rw [if_pos (only.mpr last), if_pos last]
    rcases isArray_iff.mp last.2.1 with ⟨inner, slots', rfl, there⟩
    rw [remove_array there, getSize_array there]
    apply update_congr there
    exact (dropLast_eq_eraseIdx (Nat.sub_add_cancel (by
      have large := last.2.2
      rw [getSize_array there] at large
      omega))).symm
  · rw [if_neg fun both => last (only.mp both), if_neg last]
    cases step with
    | key name =>
      have known' : slots.findIndex name = some i := known
      dsimp only
      rw [removeKey, findIndex_array found, known']
      exact remove_array found i
    | index n =>
      rw [SlotStep.indexIn] at known
      split at known
      · cases known
        exact remove_array found i
      · cases known

/-- The slot of the path is removed and nothing else, for delimiters that are
told apart, a path without a NUL, numbers that do not overflow, keys that have
a hash where more follows, and a last step that is no index of a simple value. -/
theorem operate_cleans (delims : Delimiters delim indexdelim) (heap : Heap)
    (dest : Handle) {path : Bytes} (nulFree : NulFree path)
    (bounded : IndicesBounded indexdelim path)
    (known : ∀ tokens : List PathToken, (∀ token ∈ tokens, token.Proper delim indexdelim) →
      path = joinTokens delim indexdelim tokens → HashesKnown (tokens.map PathToken.step))
    (notInto : ¬IntoValue delim indexdelim heap dest path) (removeLast : Bool) :
    Cleans 1 heap dest path removeLast delim indexdelim := by
  have kept := lookupPath_heap delims heap dest nulFree bounded
  rw [Cleans]
  cases found : (Anything.lookupPath heap dest path delim indexdelim).2 with
  | none =>
    have nowhere : Anything.lookupPath heap dest path delim indexdelim =
        (heap, none) := Prod.ext kept found
    dsimp only
    rw [operate, nowhere, ite_self]
  | some c =>
    rcases tokens_of_lookupPath delims nulFree found with ⟨all, some', proper, rfl⟩
    rcases eq_nil_or_concat all with empty | ⟨tokens, last, split⟩
    · exact absurd empty some'
    · rw [concat_eq_append] at split
      subst split
      rcases operate_found delims proper (bounded.joinTokens proper)
          (Prod.ext kept found) (known _ proper rfl) removeLast with
        ⟨parent, leads, here, result⟩
      have array : heap.isArray parent = true := by
        by_contra leaf
        rw [Bool.not_eq_true] at leaf
        rcases SlotFinder.access_leaf leaf here with ⟨isFirst, -, -⟩
        cases last with
        | key name => cases isFirst
        | index digits =>
          refine notInto ⟨parent, digits, ⟨tokens, rfl, proper, leads⟩, leaf, ?_⟩
          rw [PathToken.step, findOrAt] at here
          split at here
          · assumption
          · cases here
      rcases isArray_iff.mp array with ⟨place, slots, rfl, there⟩
      rw [SlotFinder.findOrAt_array there] at here
      rcases Option.map_eq_some_iff.mp here with ⟨i, index, held⟩
      rw [← arrayAt_of there] at index held
      exact ⟨place, i, ⟨last, ⟨tokens, rfl, proper, leads⟩, index⟩, held,
        result.trans (removed_array array index removeLast)⟩

def nestedHeap : Heap :=
  [.array [(lit "a", some 1), (lit "b", some 2)],
    .array [(lit "x", some 2), (lit "y", some 3)], .array [([], some 3)], .long 5]

theorem operate_cleans_nested :
    Cleans 1 nestedHeap (some 0) (lit "a.x") true (ch '.') (ch ':') := by
  have read : ∀ tokens : List PathToken, (∀ token ∈ tokens, token.Proper (ch '.') (ch ':')) →
      lit "a.x" = joinTokens (ch '.') (ch ':') tokens → scannedTokens (ch '.') (ch ':') tokens =
          [.key (lit "a.x") 1 (keyHash (lit "a")), .key (lit "x") 1 (keyHash (lit "x"))] := by
    intro tokens proper same
    have some' : tokens ≠ [] := by
      rintro rfl
      cases same
    have steps := lookupSteps_joinTokens defaultDelimiters some' proper
      (length_le_joinTokens proper)
    rw [← same] at steps
    exact Option.some.inj (steps.symm.trans (by decide +kernel))
  refine operate_cleans defaultDelimiters nestedHeap (some 0) (by decide) ?_ ?_ ?_ true
  · intro front digits rest same _
    have among : ch ':' ∈ lit "a.x" := same ▸ mem_append_right front mem_cons_self
    exact absurd among (by decide)
  · intro tokens proper same
    refine @hashesKnown_of_scanned (ch '.') (ch ':') tokens fun text keylen member => ?_
    rw [read tokens proper same] at member
    have zero : 0 = keyHash (lit "a") := (LookupStep.key.inj (mem_singleton.mp member)).2.2
    revert zero
    decide +kernel
  · rintro ⟨value, digits, ⟨tokens, same, proper, -⟩, -⟩
    have steps := congrArg List.getLast? (read _ proper same)
    rw [getLast?_scannedTokens] at steps
    cases steps

theorem Cleans.shrinks {few : Nat} {heap : Heap} {dest c : Handle} {path : Bytes}
    (cleans : Cleans few heap dest path false delim indexdelim)
    (found : (Anything.lookupPath heap dest path delim indexdelim).2 = some c) :
    (operate heap dest path false delim indexdelim).length = heap.length ∧
      operate heap dest path false delim indexdelim ≠ heap := by
  rw [Cleans, found] at cleans
  rcases cleans with ⟨place, i, ⟨last, -, index⟩, -, result⟩
  rw [if_neg (fun both => Bool.noConfusion both.1)] at result
  rw [result]
  refine ⟨length_update .., fun same => ?_⟩
  have inside := SlotStep.indexIn_lt index
  cases found : heap[place]? with
  | none => simp [arrayAt, found] at inside
  | some impl =>
    have here := congrArg (·[place]?) same
    cases impl with
    | array slots =>
      rw [arrayAt_of found] at inside
      simp only [update_here _ found, found, Option.some.injEq, AnyImpl.array.injEq] at here
      have fewer := congrArg List.length here
      rw [length_eraseIdx_of_lt inside] at fewer
      omega
    | _ => simp [arrayAt, found] at inside

/-- Not always that slot alone: an array with one slot leaves its own, the
value itself stays, and a key without a hash or a number that is too large has
made a slot. -/
theorem not_cleans :
    ¬Cleans 0 nestedHeap (some 0) (lit "b") true (ch '.') (ch ':') ∧
    ¬Cleans 1 nestedHeap (some 0) (lit "b:0:0") false (ch '.') (ch ':') ∧
    ¬Cleans 1 [.array [(zeroHashKey ++ lit ".b", some 1)], .array [(lit "b", some 0)]]
      (some 0) (zeroHashKey ++ lit ".b") false (ch '.') (ch ':') ∧
    ¬Cleans 1 [.array []] (some 0) (lit ":9223372036854775808") false (ch '.') (ch ':') := by
  refine ⟨fun cleans => ?_, fun cleans => ?_, fun cleans => ?_, fun cleans => ?_⟩
  · have found : (Anything.lookupPath nestedHeap (some 0) (lit "b") (ch '.')
        (ch ':')).2 = some (some 2) := by decide +kernel
    rw [Cleans, found] at cleans
    rcases cleans with ⟨place, i, -, -, result⟩
    rw [if_pos (by decide)] at result
    revert result
    decide +kernel
  · exact absurd (@Cleans.shrinks _ _ 1 _ _ (some 3) _ cleans (by decide +kernel)).2
      (by decide +kernel)
  · exact absurd (@Cleans.shrinks _ _ 1 _ _ (some 0) _ cleans (by decide +kernel)).1
      (by decide +kernel)
  · rw [Cleans, show (Anything.lookupPath [.array []] (some 0)
      (lit ":9223372036854775808") (ch '.') (ch ':')).2 = none by decide +kernel] at cleans
    revert cleans
    decide +kernel

end SlotCleaner

end Coast
