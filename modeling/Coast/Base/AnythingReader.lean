import Coast.Base.AnythingText

/-!
# Reading the text format

The parser makes from a readable text the objects of its tree and remembers
its references.
-/

namespace Coast

open IStream AnythingToken Heap List

def StartsDelimited (text : Bytes) : Prop :=
  ∃ c rest, text = c :: rest ∧ isNameDelimiter c = true ∧ c ≠ 0

theorem startsDelimited_spaces {spaces text : Bytes} (all : ∀ c ∈ spaces, isspace c = true)
    (delimited : StartsDelimited text) : StartsDelimited (spaces ++ text) := by
  cases spaces with
  | nil => exact delimited
  | cons c spaces =>
    have space : isspace c = true := all c mem_cons_self
    refine ⟨c, spaces ++ text, rfl, isNameDelimiter_of_isspace space, ?_⟩
    rintro rfl
    revert space
    decide

theorem startsDelimited_cons {c : Byte} (rest : Bytes)
    (delimiter : (isNameDelimiter c && c ≠ 0) = true) :
    StartsDelimited (c :: rest) := by
  obtain ⟨delimits, notNul⟩ := Bool.and_eq_true_iff.mp delimiter
  exact ⟨c, rest, rfl, delimits, by simpa using notNul⟩

namespace AnyText

theorem text_startsDelimited {p : AnyPrinter} {separated : Bool}
    (layout : Layout p separated) (level : Nat) (rest : Bytes) :
    ∀ (value : AnyText), (∀ word, value ≠ number word) →
      StartsDelimited (text p level value ++ rest)
  | null, _ => startsDelimited_cons _ (by decide)
  | number word, named => absurd rfl (named word)
  | charPtr value, _ => by
      rw [text, intPrintOn_doubleQuote]
      exact startsDelimited_cons _ (by decide)
  | voidBuf _, _ => startsDelimited_cons _ (by decide)
  | ref _ _, _ => startsDelimited_cons _ (by decide)
  | array _, _ => by
      obtain ⟨spaces, brace, -⟩ := layout.arrayBefore level
      rw [text, brace]
      exact startsDelimited_cons _ (by decide)

theorem text_pos {p : AnyPrinter} {separated : Bool} (layout : Layout p separated) {value : AnyText}
    (readable : value.Readable separated) (level : Nat) :
    0 < (value.text p level).length := by
  by_cases number : ∃ word, value = .number word
  · obtain ⟨word, rfl⟩ := number
    obtain ⟨c, tail, same, -⟩ := readable.start
    simp [text, same]
  · obtain ⟨c, rest, same, -⟩ := text_startsDelimited layout level [] value
      (fun word named => number ⟨word, named⟩)
    rw [append_nil] at same
    simp [same]

theorem after_startsDelimited {p : AnyPrinter} {separated : Bool}
    (layout : Layout p separated) (level : Nat) (rest word : Bytes) (slots : List (Bytes × AnyText))
    (apart : separated = true ∨ ¬ Glues (number word) slots) :
    StartsDelimited (p.afterElement level ++
      (textSlots p level slots ++ p.arrayAfter level ++ rest)) := by
  rcases apart with separate | apart
  · cases after : p.afterElement level with
    | nil => exact absurd after (layout.separates separate level)
    | cons c spaces =>
      have all := layout.afterElement level
      rw [after] at all
      have space : isspace c = true := all c mem_cons_self
      refine ⟨c, _, rfl, isNameDelimiter_of_isspace space, ?_⟩
      rintro rfl
      revert space
      decide
  · apply startsDelimited_spaces (layout.afterElement level)
    cases slots with
    | nil =>
      obtain ⟨spaces, brace, all⟩ := layout.arrayAfter level
      rw [textSlots, nil_append, brace, append_assoc]
      exact startsDelimited_spaces all (startsDelimited_cons _ (by decide))
    | cons slot slots =>
      obtain ⟨key, value⟩ := slot
      simp only [textSlots, append_assoc]
      apply startsDelimited_spaces (layout.beforeElement level)
      by_cases unnamed : key = []
      · subst unnamed
        rw [printSlotName, if_pos rfl, nil_append]
        apply text_startsDelimited layout
        rintro word' rfl
        exact apart trivial
      · rw [printSlotName, if_neg unnamed]
        exact startsDelimited_cons _ (by decide)

end AnyText

/-- A stream in front of a text, `errno` not set. -/
def stateAt (before text : Bytes) (heap : Heap) (xrefs : List PatchRef) : ParseState :=
  ⟨at_ before text, false, heap, xrefs⟩

theorem token_stateAt {before text : Bytes} {tok : AnythingToken} {before' rest : Bytes}
    (reads : read (at_ before text) = (tok, at_ before' rest))
    (heap : Heap) (xrefs : List PatchRef) :
    (stateAt before text heap xrefs).token = (tok, stateAt before' rest heap xrefs) := by
  unfold ParseState.token stateAt
  simp only [reads]

theorem token_spaces (spaces text before : Bytes)
    (all : ∀ c ∈ spaces, isspace c = true) (heap : Heap) (xrefs : List PatchRef) :
    ∃ before', (stateAt before (spaces ++ text) heap xrefs).token =
      (stateAt before' text heap xrefs).token := by
  obtain ⟨before', same⟩ := read_spaces text spaces before all
  refine ⟨before', ?_⟩
  unfold ParseState.token stateAt
  simp only [same]

def StartsValue (tok : Tok) : Prop :=
  tok ∉ [Tok.eRef, .eInclude, .eIndex, .eError, .eNullSym, .char (ch '}')]

instance (tok : Tok) : Decidable (StartsValue tok) := inferInstanceAs (Decidable (_ ∉ _))

section Grammar

variable (env : ParserEnv)
variable (includeAny : Bytes → ParseState → Handle × ParseState)
variable (sequence : List PathStep → ParseState → Bool × Slots Handle × ParseState)

theorem parseElement_value {tok : AnythingToken} (starts : StartsValue tok.token)
    (level : List PathStep) (slots : Slots Handle) (st : ParseState) :
    parseElement env includeAny sequence level tok slots st =
      parseUnnamed env sequence level tok slots st := by
  unfold StartsValue at starts
  unfold parseElement
  split <;> simp_all

theorem parseNamed_value {tok : AnythingToken} (starts : StartsValue tok.token)
    (level : List PathStep) (key : Bytes) (slots : Slots Handle)
    {st st' : ParseState} (next : st.token = (tok, st')) :
    parseNamed env includeAny sequence level key slots st =
      let (lastok, element, st) := parseValue env sequence (level ++ [.key key]) tok st'
      .slot lastok (slots.setKey key element) st := by
  unfold StartsValue at starts
  unfold parseNamed
  rw [next]
  simp only
  split <;> simp_all

end Grammar

private theorem makeNumber_stateAt (before text : Bytes) (heap : Heap)
    (xrefs : List PatchRef) (number : BitVec 64 × Bool) :
    makeNumber (stateAt before text heap xrefs) number.2
        (.long ⟨⟨number.1⟩⟩) =
      ((load (AnyText.numberValue number) heap).1,
        stateAt before text (load (AnyText.numberValue number) heap).2 xrefs) := by
  obtain ⟨value, erange⟩ := number
  cases erange <;> rfl

theorem makeSimpleAny_number (env : ParserEnv) (word before text : Bytes)
    (heap : Heap) (xrefs : List PatchRef) :
    makeSimpleAny env (numberToken word) (stateAt before text heap xrefs) =
      (true, (load (AnyText.numberTree word) heap).1,
        stateAt before text (load (AnyText.numberTree word) heap).2 xrefs) := by
  unfold AnyText.numberTree
  rcases numberToken_shape word with name | octal | decimal
  · rw [name]
    rfl
  · rw [octal]
    exact congrArg (Prod.mk true) (makeNumber_stateAt before text heap xrefs (strtoul 8 word))
  · rw [decimal]
    exact congrArg (Prod.mk true)
      (makeNumber_stateAt before text heap xrefs ((strtol word).1.toBitVec, (strtol word).2))

theorem parseValue_number (env : ParserEnv)
    (sequence : List PathStep → ParseState → Bool × Slots Handle × ParseState)
    (level : List PathStep) (word : Bytes) (st : ParseState) :
    StartsValue (numberToken word).token ∧ parseValue env sequence level (numberToken word) st =
        makeSimpleAny env (numberToken word) st := by
  unfold parseValue
  rcases numberToken_shape word with token | token | token <;> rw [token]
  · exact ⟨show StartsValue .eString by decide,
      if_neg (show Tok.eString ≠ .char (ch '{') by decide)⟩
  · exact ⟨show StartsValue .eOctalNumber by decide,
      if_neg (show Tok.eOctalNumber ≠ .char (ch '{') by decide)⟩
  · exact ⟨show StartsValue .eDecimalNumber by decide,
      if_neg (show Tok.eDecimalNumber ≠ .char (ch '{') by decide)⟩

theorem loadSlots_steps (steps : List PathStep) :
    ∀ heap : Heap, loadSlots (steps.map AnyText.stepTree) heap =
      ((List.range steps.length).map fun i =>
          (([] : Bytes), some (heap.length + i)),
        heap ++ steps.map fun
          | .key name => AnyImpl.charPtr name
          | .index i => AnyImpl.long i) := by
  induction steps with
  | nil =>
    intro heap
    simp [loadSlots]
  | cons step steps ih =>
    intro heap
    have shifted : ∀ i, heap.length + 1 + i = heap.length + (i + 1) := by
      omega
    cases step <;>
      simp [loadSlots, AnyText.stepTree, load, alloc, ih, range_succ_eq_map, shifted]

theorem allocSteps_eq_load (steps : List PathStep) (heap : Heap) :
    heap.allocSteps steps = load (.array (steps.map AnyText.stepTree)) heap := by
  rw [load, loadSlots_steps]
  rfl

theorem makeRef_stateAt {query : Bytes} (ranged : (escapedQueryStringToAny query).2 = false)
    (raw before text : Bytes) (level : List PathStep) (slot : PathStep)
    (heap : Heap) (xrefs : List PatchRef) :
    makeRef query level slot (stateAt before text heap xrefs) =
      ((load (AnyText.tree (.ref raw query)) heap).1,
        stateAt before text (load (AnyText.tree (.ref raw query)) heap).2
          (xrefs ++ [⟨level, slot⟩])) := by
  have dummy := allocSteps_eq_load (escapedQueryStringToAny query).1 heap
  simp only [makeRef, stateAt, dummy, ranged, AnyText.tree, Bool.or_false]

/-! ## Values and sequences -/

section Reading

variable (env : ParserEnv)
variable (includeAny : Bytes → ParseState → Handle × ParseState)
variable {p : AnyPrinter} {separated : Bool}

private def sequenceOf (fuel : Nat) (level : List PathStep)
    (st : ParseState) : Bool × Slots Handle × ParseState :=
  doParseSequence env includeAny fuel level none true [] st

private def loaded (value : AnyText) (level : List PathStep)
    (before rest : Bytes) (heap : Heap) (xrefs : List PatchRef) :
    Bool × Handle × ParseState :=
  (true, (load value.tree heap).1,
    stateAt before rest (load value.tree heap).2 (xrefs ++ value.refs level))

private def ValueReads (fuel n : Nat) (value : AnyText) (rest : Bytes)
    (heap : Heap) (xrefs : List PatchRef) : Prop :=
  ∀ (level : List PathStep) (before : Bytes), ∃ tok st before',
    (stateAt before (value.text p n ++ rest) heap xrefs).token = (tok, st) ∧ StartsValue tok.token ∧
    parseValue env (sequenceOf env includeAny fuel) level tok st =
      loaded value level before' rest heap xrefs

private theorem parseElement_ref {query : Bytes}
    (ranged : (escapedQueryStringToAny query).2 = false)
    (raw before rest : Bytes) (level : List PathStep) (acc : Slots Handle)
    (fuel : Nat) (heap : Heap) (xrefs : List PatchRef) :
    parseElement env includeAny (sequenceOf env includeAny fuel) level
        ⟨.eRef, query⟩ acc (stateAt before rest heap xrefs) =
      .slot true (acc.append (load (AnyText.tree (.ref raw query)) heap).1)
        (stateAt before rest (load (AnyText.tree (.ref raw query)) heap).2
          (xrefs ++ [⟨level, .index (Int64.ofNat acc.length)⟩])) := by
  simp only [parseElement, makeRef_stateAt ranged raw]

private theorem parseNamed_ref {query : Bytes} (ranged : (escapedQueryStringToAny query).2 = false)
    (raw : Bytes) {before text before' rest : Bytes}
    (level : List PathStep) (key : Bytes) (acc : Slots Handle)
    (fuel : Nat) (heap : Heap) (xrefs : List PatchRef)
    (next : (stateAt before text heap xrefs).token =
      (⟨.eRef, query⟩, stateAt before' rest heap xrefs)) :
    parseNamed env includeAny (sequenceOf env includeAny fuel) level key acc
        (stateAt before text heap xrefs) =
      .slot true (acc.setKey key (load (AnyText.tree (.ref raw query)) heap).1)
        (stateAt before' rest (load (AnyText.tree (.ref raw query)) heap).2
          (xrefs ++ [⟨level, .key key⟩])) := by
  simp only [parseNamed, next, makeRef_stateAt ranged raw]

private def slotRead (value : AnyText) (key : Bytes) (level : List PathStep) (acc : Slots Handle)
    (before rest : Bytes) (heap : Heap) (xrefs : List PatchRef) : Outcome :=
  .slot true (acc ++ [(key, (load value.tree heap).1)])
    (stateAt before rest (load value.tree heap).2
      (xrefs ++ (value.refHere level (AnyText.slotStep key acc.length) ++
          value.refs (level ++ [AnyText.slotStep key acc.length]))))

/-- A slot is read from its text, with its name or without. -/
private theorem parseElement_text {value : AnyText}
    (readable : value.Readable separated) {key : Bytes} {acc : Slots Handle}
    (keyOk : key ≠ [] → NulFree key ∧ key ∉ acc.keys)
    (n fuel : Nat) (level : List PathStep) (spaces : Bytes)
    (all : ∀ c ∈ spaces, isspace c = true) (before rest : Bytes)
    (heap : Heap) (xrefs : List PatchRef)
    (valueReads : (∀ raw query, value ≠ .ref raw query) →
      ValueReads env includeAny (p := p) fuel n value rest heap xrefs) :
    ∃ tok st before', (stateAt before (spaces ++ (printSlotName key ++ (value.text p n ++ rest)))
          heap xrefs).token = (tok, st) ∧
      parseElement env includeAny (sequenceOf env includeAny fuel) level tok
          acc st =
        slotRead value key level acc before' rest heap xrefs := by
  obtain ⟨before₁, passed⟩ := token_spaces spaces
    (printSlotName key ++ (value.text p n ++ rest)) before all heap xrefs
  rw [passed]
  by_cases ref : ∃ raw query, value = .ref raw query
  · obtain ⟨raw, query, rfl⟩ := ref
    obtain ⟨reads, nonempty, ranged⟩ := readable
    have text : AnyText.text p n (.ref raw query) ++ rest =
        ch '%' :: ch '"' :: (raw ++ ch '"' :: rest) := by
      simp [AnyText.text]
    have quoted : ∀ before, ∃ before',
        (stateAt before (AnyText.text p n (.ref raw query) ++ rest) heap
          xrefs).token = (⟨.eRef, query⟩, stateAt before' rest heap xrefs) := by
      intro before
      obtain ⟨before', token⟩ := read_quotedReference .ref reads nonempty before rest
      exact ⟨before', by rw [text]; exact token_stateAt token heap xrefs⟩
    by_cases unnamed : key = []
    · subst unnamed
      obtain ⟨before', next⟩ := quoted before₁
      refine ⟨_, _, before', next, ?_⟩
      rw [parseElement_ref env includeAny ranged raw]
      simp [slotRead, AnyText.refHere, AnyText.refs, AnyText.slotStep, Slots.append]
    · obtain ⟨nulFree, absent⟩ := keyOk unnamed
      obtain ⟨before₂, keyRead⟩ := read_printKey unnamed before₁
        (AnyText.text p n (.ref raw query) ++ rest)
      obtain ⟨before₃, blank⟩ := token_spaces [ch ' ']
        (AnyText.text p n (.ref raw query) ++ rest) before₂
        (by decide) heap xrefs
      obtain ⟨before', next⟩ := quoted before₃
      rw [printSlotName, if_neg unnamed]
      refine ⟨_, _, before', token_stateAt keyRead heap xrefs, ?_⟩
      have named := parseNamed_ref env includeAny ranged raw level key acc
        fuel heap xrefs (blank.trans next)
      simp only [cons_append, nil_append] at named
      simp only [parseElement, named, Slots.setKey_of_notMem _ nulFree absent]
      simp [slotRead, AnyText.refHere, AnyText.refs, AnyText.slotStep, unnamed]
  · have notRef : ∀ raw query, value ≠ .ref raw query :=
      fun raw query same => ref ⟨raw, query, same⟩
    have noneHere : ∀ slot, value.refHere level slot = [] := by
      intro slot
      cases value with
      | ref raw query => exact absurd rfl (notRef raw query)
      | _ => rfl
    by_cases unnamed : key = []
    · subst unnamed
      obtain ⟨tok, st, before', next, starts, parsed⟩ := valueReads notRef
        (level ++ [.index (Int64.ofNat acc.length)]) before₁
      refine ⟨tok, st, before', next, ?_⟩
      rw [parseElement_value env includeAny _ starts, parseUnnamed, parsed]
      simp [slotRead, loaded, noneHere, AnyText.slotStep, Slots.append]
    · obtain ⟨nulFree, absent⟩ := keyOk unnamed
      obtain ⟨before₂, keyRead⟩ := read_printKey unnamed before₁ (value.text p n ++ rest)
      obtain ⟨before₃, blank⟩ := token_spaces [ch ' '] (value.text p n ++ rest)
        before₂ (by decide) heap xrefs
      obtain ⟨tok, st, before', next, starts, parsed⟩ := valueReads notRef
        (level ++ [.key key]) before₃
      rw [printSlotName, if_neg unnamed]
      refine ⟨_, _, before', token_stateAt keyRead heap xrefs, ?_⟩
      have named := parseNamed_value env includeAny
        (sequenceOf env includeAny fuel) starts level key acc (blank.trans next)
      rw [parsed] at named
      simp only [cons_append, nil_append] at named
      simp only [parseElement, named, loaded, Slots.setKey_of_notMem _ nulFree absent]
      simp [slotRead, noneHere, AnyText.slotStep, unnamed]

mutual

/-- A value is read from its text, whatever may follow. -/
private theorem parseValue_text (layout : AnyText.Layout p separated) :
    ∀ (value : AnyText), value.Readable separated → (∀ raw query, value ≠ .ref raw query) →
      ∀ (n fuel : Nat) (rest : Bytes) (heap : Heap)
        (xrefs : List PatchRef),
        (∀ word, value = .number word → StartsDelimited rest) →
        (value.text p n ++ rest).length ≤ fuel + 1 →
        ValueReads env includeAny (p := p) fuel n value rest heap xrefs
  | .null, _, _, n, fuel, rest, heap, xrefs, _, _, level, before => by
      refine ⟨⟨.char (ch '*'), [ch '*']⟩, _, ch '*' :: before,
        token_stateAt (read_char (by decide) before rest) heap xrefs,
        by decide, ?_⟩
      simp only [loaded, AnyText.refs, append_nil]
      rfl
  | .number word, number, _, n, fuel, rest, heap, xrefs, delimited, _, level, before => by
      obtain ⟨c, text, rfl, delimiter, notNul⟩ := delimited word rfl
      obtain ⟨before', reads⟩ := read_numberWord number before text delimiter notNul
      obtain ⟨starts, simple⟩ := parseValue_number env (sequenceOf env includeAny fuel) level word
        (stateAt before' (c :: text) heap xrefs)
      refine ⟨_, _, before', token_stateAt reads heap xrefs, starts, ?_⟩
      rw [simple, makeSimpleAny_number]
      simp only [loaded, AnyText.refs, append_nil]
      rfl
  | .charPtr value, _, _, n, fuel, rest, heap, xrefs, _, _, level, before => by
      obtain ⟨before', reads⟩ := read_intPrintOn value before rest
      refine ⟨_, _, before', token_stateAt reads heap xrefs,
        show StartsValue .eString by decide, ?_⟩
      simp only [loaded, AnyText.refs, append_nil]
      rfl
  | .voidBuf value, bounded, _, n, fuel, rest, heap, xrefs, _, _, level, before => by
      obtain ⟨before', reads⟩ := read_printVoidBuf bounded before rest
      refine ⟨_, _, before', token_stateAt reads heap xrefs,
        show StartsValue .eBinaryBuf by decide, ?_⟩
      simp only [loaded, AnyText.refs, append_nil]
      rfl
  | .ref raw query, _, notRef, _, _, _, _, _, _, _, _, _ =>
    absurd rfl (notRef raw query)
  | .array slots, ⟨keysOk, readable⟩, _, n, fuel, rest, heap, xrefs, _, enough, level, before => by
      obtain ⟨spaces, brace, all⟩ := layout.arrayBefore n
      have text : AnyText.text p n (.array slots) ++ rest = ch '{' ::
          (spaces ++ (AnyText.textSlots p n slots ++ p.arrayAfter n ++ rest)) := by
        simp [AnyText.text, brace]
      rw [text] at enough
      obtain ⟨before', inside⟩ := doParseSequence_text layout slots readable
        [] keysOk.distinct keysOk.nulFree n fuel level true spaces
        (ch '{' :: before) rest heap xrefs all (by
          simp only [length_cons] at enough
          omega)
      refine ⟨⟨.char (ch '{'), [ch '{']⟩, _, before', by
        rw [text]
        exact token_stateAt (read_char (by decide) before _) heap xrefs,
        by decide, ?_⟩
      rw [parseValue, if_pos rfl, parseArray, sequenceOf, inside]
      rfl

/-- The slots of an array up to the closing brace, with the white space
before them.  The induction follows the slots; every turn of the loop uses
up a character, which the fuel stands for. -/
private theorem doParseSequence_text (layout : AnyText.Layout p separated) :
    ∀ (slots : List (Bytes × AnyText)), AnyText.ReadableSlots separated slots →
      ∀ (acc : Slots Handle), (acc.keys ++ Slots.keys slots).Nodup →
        (∀ key ∈ Slots.keys slots, NulFree key) →
      ∀ (n fuel : Nat) (level : List PathStep) (ok : Bool)
        (spaces before rest : Bytes) (heap : Heap) (xrefs : List PatchRef),
        (∀ c ∈ spaces, isspace c = true) →
        (spaces ++ (AnyText.textSlots p n slots ++ p.arrayAfter n ++ rest)).length ≤ fuel →
        ∃ before', doParseSequence env includeAny fuel level none ok acc
              (stateAt before
                (spaces ++ (AnyText.textSlots p n slots ++ p.arrayAfter n ++ rest)) heap xrefs) =
            (ok, acc ++ (loadSlots (AnyText.treeSlots slots) heap).1,
              stateAt before' rest (loadSlots (AnyText.treeSlots slots) heap).2
                (xrefs ++ AnyText.refsSlots level acc.length slots))
  | [], _, acc, _, _, n, fuel, level, ok, spaces, before, rest, heap, xrefs, all, enough => by
      obtain ⟨indent, brace, blank⟩ := layout.arrayAfter n
      have text : spaces ++ (AnyText.textSlots p n [] ++ p.arrayAfter n ++
          rest) = (spaces ++ indent) ++ ch '}' :: rest := by
        simp [AnyText.textSlots, brace]
      rw [text] at enough ⊢
      cases fuel with
      | zero =>
        simp at enough
      | succ fuel =>
        obtain ⟨before', passed⟩ := token_spaces (spaces ++ indent)
          (ch '}' :: rest) before
          (fun c member => (mem_append.mp member).elim (all c) (blank c)) heap xrefs
        have next := passed.trans (token_stateAt (read_char (by decide) before' rest) heap xrefs)
        refine ⟨ch '}' :: before', ?_⟩
        rw [doParseSequence]
        simp only [next, parseElement, if_true]
        simp [loadSlots, AnyText.treeSlots, AnyText.refsSlots]
  | (key, value) :: slots, ⟨readable, apart, others⟩, acc, distinct,
      nulFree, n, fuel, level, ok, spaces, before, rest, heap, xrefs, all,
      enough => by
      set following := p.afterElement n ++
        (AnyText.textSlots p n slots ++ p.arrayAfter n ++ rest) with same
      have text : spaces ++ (AnyText.textSlots p n ((key, value) :: slots) ++
          p.arrayAfter n ++ rest) =
          (spaces ++ p.beforeElement n) ++
            (printSlotName key ++ (value.text p (n + 1) ++ following)) := by
        simp [AnyText.textSlots, same]
      rw [text] at enough ⊢
      have visible := AnyText.text_pos layout readable (n + 1)
      simp only [length_append] at enough
      obtain ⟨fuel, rfl⟩ : ∃ less, fuel = less + 1 := ⟨fuel - 1, by omega⟩
      rw [Slots.keys_cons] at distinct nulFree
      have keyOk : key ≠ [] → NulFree key ∧ key ∉ acc.keys := by
        intro named
        rw [if_neg named] at distinct nulFree
        refine ⟨nulFree key (by simp), fun member => ?_⟩
        exact disjoint_of_nodup_append distinct member (by simp)
      have valueReads := fun notRef =>
        parseValue_text layout value readable notRef (n + 1) fuel following
          heap xrefs
          (fun word number => AnyText.after_startsDelimited layout n rest
            word slots (number ▸ apart))
          (by simp only [length_append]; omega)
      obtain ⟨tok, st, before₁, next, element⟩ := parseElement_text env
        includeAny readable keyOk (n + 1) fuel level
        (spaces ++ p.beforeElement n)
        (fun c member => (mem_append.mp member).elim (all c)
          (layout.beforeElement n c)) before following heap xrefs valueReads
      obtain ⟨before', sequence⟩ := doParseSequence_text layout slots others
        (acc ++ [(key, (load value.tree heap).1)])
        (by simpa [Slots.keys_append, Slots.keys_cons] using distinct)
        (fun key member => nulFree key (mem_append_right _ member))
        n fuel level ok (p.afterElement n) before₁ rest
        (load value.tree heap).2 (xrefs ++ (value.refHere level (AnyText.slotStep key acc.length) ++
            value.refs (level ++ [AnyText.slotStep key acc.length])))
        (layout.afterElement n)
        (by rw [← same]; omega)
      refine ⟨before', ?_⟩
      rw [doParseSequence]
      simp only [next]
      change (match parseElement env includeAny
          (sequenceOf env includeAny fuel) level tok acc st with
        | .finished done slots st => (ok && done, slots, st)
        | .slot lastok slots st =>
          if st.stream.good then
            doParseSequence env includeAny fuel level none (ok && lastok) slots st
          else (false, slots, st)
        | .restart tok slots st =>
          doParseSequence env includeAny fuel level (some tok) ok slots st) = _
      rw [element]
      simp only [slotRead, stateAt, good_at, if_true, Bool.and_true]
      rw [← same] at sequence
      refine sequence.trans ?_
      simp [loadSlots, AnyText.treeSlots, AnyText.refsSlots, stateAt]

end

end Reading

/-- A readable text that is no number is imported as the objects of its
tree, then its references are patched. -/
theorem importText_text {p : AnyPrinter} {separated : Bool}
    (layout : AnyText.Layout p separated) {value : AnyText} (readable : value.Readable separated)
    (notNumber : ∀ word, value ≠ .number word) (notRef : ∀ raw query, value ≠ .ref raw query)
    (env : ParserEnv) (depth : Nat) :
    importText env depth false (value.text p 0) = ⟨true, (load value.tree []).1,
        patch (load value.tree []).1 (load value.tree []).2 (value.refs [])⟩ := by
  have all := parseValue_text env (importIncludeAny env depth) layout value
    readable notRef 0 ((value.text p 0).length + 1) [] [] []
    (fun word same => absurd same (notNumber word))
    (by rw [append_nil]; omega)
  obtain ⟨tok, st, before', next, -, parsed⟩ := all [] []
  rw [append_nil] at next
  have start : (⟨at_ [] (value.text p 0), false, [], []⟩ : ParseState).token = (tok, st) := next
  have whole : parseValue env (fun level st =>
      doParseSequence env (importIncludeAny env depth)
        ((value.text p 0).length + 1) level none true [] st) [] tok st =
      (true, (load value.tree []).1,
        stateAt before' [] (load value.tree []).2 ([] ++ value.refs [])) := parsed
  simp only [importText, importWith, doParse, ofText, start]
  rw [show (at_ [] (value.text p 0)).rest = value.text p 0 from rfl, whole]
  rfl

end Coast
