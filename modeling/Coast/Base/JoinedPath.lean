import Coast.Base.PathTokens

/-!
# Paths that are joined from steps

A path is written with a dot before a key and a colon before an index.
Looking it up does what the steps do one after the other.
-/

namespace Coast

open PartialSteps List

/-- A step as a program takes it: `FindIndex(key)` or `At(index)`. -/
inductive SlotStep where
  | key (name : Bytes)
  | index (i : Nat)
  deriving DecidableEq, Repr

namespace SlotStep

def text : SlotStep → Bytes
  | key name => ch '.' :: name
  | index i => ch ':' :: digitsText i

/-- A key that a path can hold, or an index that a `long` can. -/
def Proper : SlotStep → Prop
  | key name =>
    name ≠ [] ∧ NulFree name ∧ ch '.' ∉ name ∧ ch ':' ∉ name
  | index i => i < 2 ^ 63

instance (step : SlotStep) : Decidable step.Proper :=
  match step with
  | key _ => inferInstanceAs (Decidable (_ ∧ _ ∧ _ ∧ _))
  | index _ => inferInstanceAs (Decidable (_ < _))

/-- The hash of a key differs from the mark for one that was not hashed. -/
def HashKnown : SlotStep → Prop
  | key name => keyHash name ≠ 0
  | index _ => True

instance (step : SlotStep) : Decidable step.HashKnown :=
  match step with
  | key _ => inferInstanceAs (Decidable (_ ≠ _))
  | index _ => .isTrue trivial

end SlotStep

def joinRest (steps : List SlotStep) : Bytes := steps.flatMap SlotStep.text

def joinPath : List SlotStep → Bytes
  | .key name :: steps => name ++ joinRest steps
  | steps => joinRest steps

/-- A key whose hash `IFAHash` computes as zero. -/
def zeroHashKey : Bytes := [0x6f, 0x0f, 0x0f, 0x0f, 0x0f, 0x10, 0x70]

def findOrAt (heap : Heap) (c : Handle) : SlotStep → Option Handle
  | .key name =>
    (heap.findIndex c name 0 0).map fun (i : Nat) =>
      AnythingLookup.doGetAt heap c i
  | .index i =>
    if i < heap.getSize c then some (AnythingLookup.doGetAt heap c i)
    else none

def findOrAtDefined (heap : Heap) (c : Handle) : SlotStep → Option Handle
  | .key name => findOrAt heap c (.key name)
  | .index i => (findOrAt heap c (.index i)).filter (· ≠ none)

namespace PathToken

def step : PathToken → SlotStep
  | key name => .key name
  | index digits => .index (digitsValue 10 digits)

def Bounded : PathToken → Prop
  | key _ => True
  | index digits => digitsValue 10 digits < 2 ^ 63

end PathToken

theorem lookupNumber_digits {digits : Bytes} (all : ∀ c ∈ digits, isdigit c = true) :
    lookupNumber digits = Int64.ofNat (digitsValue 10 digits) := by
  have digit : ∀ c : Byte, isdigit c = true → c.toNat - (ch '0').toNat = (hexValue c).toNat := by
    decide
  have folded : ∀ (text : Bytes) (value : Nat), (∀ c ∈ text, isdigit c = true) →
      text.foldl (fun lIdx c =>
        lIdx * 10 + Int64.ofNat (c.toNat - (ch '0').toNat))
          (Int64.ofNat value) =
        Int64.ofNat (text.foldl (fun value c => 10 * value + (hexValue c).toNat) value) := by
    intro text
    induction text with
    | nil =>
      intro value _
      rfl
    | cons c text ih =>
      intro value digits
      rw [foldl_cons, foldl_cons, ← ih _ (forall_mem_cons.mp digits).2,
        digit c (digits c mem_cons_self), Int64.ofNat_add, Int64.ofNat_mul,
        Int64.mul_comm (Int64.ofNat 10)]
      rfl
  exact folded digits 0 all

/-- Only the last key may have the hash of a key that was not hashed. -/
def HashesKnown (steps : List SlotStep) : Prop := ∀ step ∈ steps.dropLast, step.HashKnown

instance (steps : List SlotStep) : Decidable (HashesKnown steps) :=
  inferInstanceAs (Decidable (∀ step ∈ steps.dropLast, step.HashKnown))

theorem anythingStep_scanned (heap : Heap) (c : Handle) {token : PathToken}
    {delim indexdelim : Byte} (proper : token.Proper delim indexdelim)
    (bounded : token.Bounded) {more : Bytes} (known : token.step.HashKnown ∨ more = []) :
    anythingStep heap c (token.scanned more) = findOrAtDefined heap c token.step := by
  cases token with
  | key name =>
    change anythingStep heap c (.key (name ++ more) name.length
      (keyHash name)) = findOrAt heap c (.key name)
    rw [anythingStep_key, findOrAt]
    unfold Heap.findIndex Slots.findIndexHint
    rw [if_neg (not_not.mpr rfl)]
    by_cases hashed : keyHash name = 0
    · have last : more = [] := known.resolve_left (not_not.mpr hashed)
      rw [if_neg (not_not.mpr hashed), last, append_nil]
    · rw [if_pos hashed, take_left]
  | index digits =>
    generalize same : digitsValue 10 digits = i
    have small : i < 2 ^ 63 := same ▸ bounded
    have value : (Int64.ofNat i).toInt = i := Int64.toInt_ofNat_of_lt small
    rw [PathToken.scanned, PathToken.step, lookupNumber_digits proper.2,
      same, anythingStep_index, value, findOrAtDefined, findOrAt]
    by_cases inside : i < heap.getSize c
    · rw [if_pos inside]
      by_cases null : AnythingLookup.doGetAt heap c i = none
      · rw [if_neg (fun all => all.2.2 null), null]
        rfl
      · rw [if_pos ⟨by omega, by omega, null⟩]
        simp [Option.filter, null]
    · rw [if_neg inside, if_neg (by omega)]
      rfl

theorem hashesKnown_tail {step next : SlotStep} {steps : List SlotStep}
    (known : HashesKnown (step :: next :: steps)) :
    step.HashKnown ∧ HashesKnown (next :: steps) := by
  rw [HashesKnown, dropLast_cons_cons] at known
  exact ⟨known step mem_cons_self, (forall_mem_cons.mp known).2⟩

theorem follow_scannedTokens (heap : Heap) {delim indexdelim : Byte} {tokens : List PathToken}
    (proper : ∀ token ∈ tokens, token.Proper delim indexdelim)
    (bounded : ∀ token ∈ tokens, token.Bounded)
    (known : HashesKnown (tokens.map PathToken.step)) (c : Handle) :
    follow (anythingStep heap) c (scannedTokens delim indexdelim tokens) =
      follow (findOrAtDefined heap) c (tokens.map PathToken.step) := by
  induction tokens generalizing c with
  | nil => rfl
  | cons token tokens ih =>
    have here : token.step.HashKnown ∨ tokensText delim indexdelim tokens = [] := by
      cases tokens with
      | nil => exact .inr rfl
      | cons next tokens => exact .inl (hashesKnown_tail known).1
    have later : HashesKnown (tokens.map PathToken.step) := by
      cases tokens with
      | nil => exact nofun
      | cons next tokens => exact (hashesKnown_tail known).2
    rw [scannedTokens, map_cons, follow, follow,
      anythingStep_scanned heap c (proper token mem_cons_self) (bounded token mem_cons_self) here]
    congr 1
    funext next
    exact ih (forall_mem_cons.mp proper).2 (forall_mem_cons.mp bounded).2 later next

theorem defaultDelimiters : Delimiters (ch '.') (ch ':') :=
  ⟨by decide, by decide, by decide, by decide, by decide, by decide, by decide⟩

def SlotStep.token : SlotStep → PathToken
  | key name => .key name
  | index i => .index (digitsText i)

theorem SlotStep.step_token (step : SlotStep) : step.token.step = step := by
  cases step with
  | key name => rfl
  | index i =>
    exact congrArg SlotStep.index (digitsValue_digitsText i)

theorem SlotStep.Proper.token {step : SlotStep} (proper : step.Proper) :
    step.token.Proper (ch '.') (ch ':') ∧ step.token.Bounded := by
  cases step with
  | key name => exact ⟨proper, trivial⟩
  | index i =>
    have value : digitsValue 10 (digitsText i) = i := digitsValue_digitsText i
    refine ⟨⟨digitsText_ne_nil i, isdigit_digitsText i⟩, ?_⟩
    rw [SlotStep.token, PathToken.Bounded, value]
    exact proper

theorem joinRest_eq (steps : List SlotStep) :
    joinRest steps = tokensText (ch '.') (ch ':') (steps.map SlotStep.token) := by
  rw [joinRest, tokensText, flatMap_map]
  congr 1
  funext step
  cases step with
  | key name => rfl
  | index i => rfl

theorem joinPath_eq (steps : List SlotStep) :
    joinPath steps = joinTokens (ch '.') (ch ':') (steps.map SlotStep.token) := by
  have rest := joinRest_eq steps
  cases steps with
  | nil => exact rest
  | cons step steps =>
    cases step with
    | index i => exact rest
    | key name => exact congrArg (name ++ ·) (joinRest_eq steps)

/-- Looking up a joined path does what its steps do, with an index of a Null
slot taken for undefined. -/
theorem lookupPath_joinPath (heap : Heap) (any : Handle) (steps : List SlotStep)
    (nonempty : steps ≠ []) (proper : ∀ step ∈ steps, step.Proper) (known : HashesKnown steps) :
    (Anything.lookupPath heap any (joinPath steps) (ch '.') (ch ':')).2 =
      follow (findOrAtDefined heap) any steps := by
  have back : (steps.map SlotStep.token).map PathToken.step = steps := by
    rw [map_map]
    exact map_id'' SlotStep.step_token steps
  have tokens : ∀ token ∈ steps.map SlotStep.token,
      token.Proper (ch '.') (ch ':') ∧ token.Bounded := by
    intro token member
    rcases mem_map.mp member with ⟨step, among, rfl⟩
    exact (proper step among).token
  have some' : steps.map SlotStep.token ≠ [] := fun empty => nonempty (map_eq_nil_iff.mp empty)
  rw [joinPath_eq, lookupPath_joinTokens defaultDelimiters heap any some'
      fun token member => (tokens token member).1,
    follow_scannedTokens heap (fun token member => (tokens token member).1)
      (fun token member => (tokens token member).2) (by rwa [back]), back]

def pathHeap : Heap := [.array [([], none), (zeroHashKey, some 1)], .array [([], some 2)], .long 5]

def keyedHeap : Heap :=
  [.array [([ch 'a'], some 1)], .array [([], some 2)], .array [(zeroHashKey, some 3)], .long 5]

theorem lookupPath_joinPath_example :
    HashesKnown [.key [ch 'a'], .index 0, .key zeroHashKey] ∧
    follow (findOrAtDefined keyedHeap) (some 0) [.key [ch 'a'], .index 0, .key zeroHashKey] =
      some (some 3) ∧
    (Anything.lookupPath keyedHeap (some 0)
        (joinPath [.key [ch 'a'], .index 0, .key zeroHashKey]) (ch '.') (ch ':')).2 =
      follow (findOrAtDefined keyedHeap) (some 0) [.key [ch 'a'], .index 0, .key zeroHashKey] :=
  have known : HashesKnown [.key [ch 'a'], .index 0, .key zeroHashKey] := by decide
  ⟨known, by decide +kernel, lookupPath_joinPath keyedHeap (some 0)
    [.key [ch 'a'], .index 0, .key zeroHashKey] (by decide) (by decide +kernel) known⟩

/-- Not every step that `FindIndex` and `At` take is taken: not the one to
the Null slot, and not one behind a key whose hash is zero. -/
theorem not_lookupPath_joinPath_steps :
    (¬ ∀ (heap : Heap) (any : Handle) (steps : List SlotStep),
      steps ≠ [] → (∀ step ∈ steps, step.Proper) →
        (Anything.lookupPath heap any (joinPath steps) (ch '.')
          (ch ':')).2 = follow (findOrAt heap) any steps) ∧
    (Anything.lookupPath pathHeap (some 0)
        (joinPath [.key zeroHashKey, .index 0]) (ch '.') (ch ':')).2 ≠
      follow (findOrAt pathHeap) (some 0) [.key zeroHashKey, .index 0] := by
  constructor
  · intro same
    have null := same pathHeap (some 0) [.index 0] (by decide) (by decide)
    revert null
    decide +kernel
  · decide +kernel

end Coast
