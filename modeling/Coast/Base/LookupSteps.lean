import Coast.Base.LookupPath
import Coast.Library.Fuel

/-!
# Looking up step by step

Both lookups follow the steps that the scanner reads from the path.
-/

namespace Coast

section

open PartialSteps Option

section Scan

variable {delimSlot delimIdx : Byte}

theorem isHashStop_of_ne {stop c : Byte} (differs : c ≠ stop) : isHashStop stop c = false := by
  unfold isHashStop
  rw [decide_eq_false_iff_not]
  intro same
  apply differs
  apply BitVec.eq_of_toNat_eq
  rw [BitVec.toInt_eq_toNat_cond] at same
  have cBound := c.isLt
  have stopBound := stop.isLt
  split at same <;> omega

/-- The tokens of a path, if all of it can be read. -/
def lookupSteps (delimSlot delimIdx : Byte) : Nat → Bytes → Option (List LookupStep)
  | 0, _ => none
  | fuel + 1, tokPtr =>
    match scanStep delimSlot delimIdx tokPtr with
    | none => none
    | some (step, rest) =>
      if rest = [] then some [step]
      else (lookupSteps delimSlot delimIdx fuel rest).map (step :: ·)

def Reads (access : Heap → Handle → LookupStep → Heap × Option Handle) : Prop :=
  ∀ heap c step heap' next, access heap c step = (heap', some next) → heap' = heap

theorem lookupLoop_eq_follow {access : Heap → Handle → LookupStep → Heap × Option Handle}
    (reads : Reads access) (fuel : Nat) :
    ∀ (heap : Heap) (c : Handle) (tokPtr : Bytes),
      (lookupLoop delimSlot delimIdx access fuel heap c tokPtr).2 =
        (lookupSteps delimSlot delimIdx fuel tokPtr).bind
          (follow (fun c step => (access heap c step).2) c) := by
  induction fuel with
  | zero =>
    intro heap c tokPtr
    rfl
  | succ fuel ih =>
    intro heap c tokPtr
    rw [lookupLoop, lookupSteps]
    cases scanned : scanStep delimSlot delimIdx tokPtr with
    | none => rfl
    | some result =>
      obtain ⟨step, rest⟩ := result
      simp only
      cases accessed : access heap c step with
      | mk heap' next =>
        cases next with
        | none =>
          simp only
          split
          · rw [bind_some, follow, accessed]
            rfl
          · rw [bind_map]
            symm
            rw [bind_eq_none_iff]
            intro steps _
            rw [Function.comp_apply, follow, accessed]
            rfl
        | some next =>
          have same := reads heap c step heap' next accessed
          subst same
          simp only
          split
          · rw [bind_some, follow, accessed]
            rfl
          · rw [ih, bind_map]
            congr 1
            funext steps
            rw [Function.comp_apply, follow, accessed]
            rfl

end Scan

def anythingStep (heap : Heap) (c : Handle) (step : LookupStep) : Option Handle :=
  (AnythingLookup.access heap c step).2

def roAnythingStep (heap : Heap) (c : Handle) (step : LookupStep) : Option Handle :=
  (ROAnythingLookup.access heap c step).2

theorem at_heap {heap : Heap} {c : Handle} {i : Int}
    (defined : (AnythingLookup.at_ heap c i).2 ≠ none) :
    (AnythingLookup.at_ heap c i).1 = heap := by
  unfold AnythingLookup.at_ at defined ⊢
  cases found : heap.impl c with
  | none => rfl
  | some impl =>
    rw [found] at defined
    cases impl with
    | array slots =>
      simp only at defined ⊢
      split
      · rfl
      · rename_i missing
        rw [if_neg missing] at defined
        exact absurd rfl defined
    | _ => rfl

theorem anything_reads : Reads AnythingLookup.access := by
  intro heap c step heap' next accessed
  cases step with
  | key tokPtr keylen hash =>
    rw [AnythingLookup.access] at accessed
    exact (congrArg Prod.fst accessed).symm
  | index lIdx =>
    rw [AnythingLookup.access] at accessed
    split at accessed
    · cases accessed
    · simp only at accessed
      split at accessed
      · cases accessed
      · rename_i defined
        cases accessed
        exact at_heap defined

theorem roAnything_reads : Reads ROAnythingLookup.access := by
  intro heap c step heap' next accessed
  cases step with
  | key tokPtr keylen hash =>
    rw [ROAnythingLookup.access] at accessed
    exact (congrArg Prod.fst accessed).symm
  | index lIdx =>
    rw [ROAnythingLookup.access] at accessed
    split at accessed
    · cases accessed
    · exact (congrArg Prod.fst accessed).symm

theorem findIndex_lt_getSize {heap : Heap} {c : Handle} {text : Bytes} {sizehint hashhint i : Nat}
    (found : heap.findIndex c text sizehint hashhint = some i) :
    i < heap.getSize c ∧ ROAnythingLookup.at_ heap c i = AnythingLookup.doGetAt heap c i := by
  unfold Heap.findIndex at found
  split at found
  · rename_i slots array
    have inside : i < heap.getSize c := by
      unfold Heap.getSize
      rw [array]
      exact Slots.findIndex_lt found
    refine ⟨inside, ?_⟩
    unfold ROAnythingLookup.at_ AnythingLookup.doGetAt
    rw [if_neg (by omega), array]
  · cases found

variable (heap : Heap)
include heap

theorem anythingStep_index (c : Handle) (lIdx : Int64) :
    anythingStep heap c (.index lIdx) = if 0 < heap.getSize c ∧ lIdx.toInt < heap.getSize c ∧
          AnythingLookup.doGetAt heap c lIdx.toInt ≠ none then
        some (AnythingLookup.doGetAt heap c lIdx.toInt)
      else none := by
  rw [anythingStep, AnythingLookup.access]
  by_cases large : (heap.getSize c : Int) ≤ lIdx.toInt
  · rw [if_pos large, if_neg (by omega)]
  · rw [if_neg large]
    by_cases empty : heap.getSize c = 0
    · have null : (AnythingLookup.at_ heap c lIdx.toInt).2 = none := by
        unfold Heap.getSize at empty large
        unfold AnythingLookup.at_
        cases found : heap.impl c with
        | none => rfl
        | some impl =>
          rw [found] at empty large
          cases impl with
          | array slots =>
            simp only at empty large ⊢
            rw [if_neg (by omega)]
          | _ => cases empty
      simp only [if_pos null]
      rw [if_neg (by omega)]
    · have get : (AnythingLookup.at_ heap c lIdx.toInt).2 =
          AnythingLookup.doGetAt heap c lIdx.toInt := by
        unfold Heap.getSize at empty large
        unfold AnythingLookup.at_ AnythingLookup.doGetAt
        cases found : heap.impl c with
        | none => simp [found] at empty
        | some impl =>
          rw [found] at empty large
          cases impl with
          | array slots =>
            simp only at empty large ⊢
            rw [if_pos (by omega)]
          | _ =>
            simp only at large ⊢
            rw [if_neg (by omega)]
      by_cases null : AnythingLookup.doGetAt heap c lIdx.toInt = none
      · simp only [if_pos (get.trans null)]
        rw [if_neg (fun all => all.2.2 null)]
      · have same := at_heap (get ▸ null)
        simp only [get, if_neg null, same]
        rw [if_pos ⟨by omega, by omega, null⟩]

theorem roAnythingStep_index (c : Handle) (lIdx : Int64) :
    roAnythingStep heap c (.index lIdx) = if 0 ≤ lIdx.toInt ∧ lIdx.toInt < heap.getSize c ∧
          AnythingLookup.doGetAt heap c lIdx.toInt ≠ none then
        some (AnythingLookup.doGetAt heap c lIdx.toInt)
      else none := by
  have get : ∀ i : Int, 0 ≤ i → i < heap.getSize c →
      ROAnythingLookup.at_ heap c i = AnythingLookup.doGetAt heap c i := by
    intro i positive inside
    unfold ROAnythingLookup.at_ AnythingLookup.doGetAt
    rw [if_neg (by omega)]
  rw [roAnythingStep, ROAnythingLookup.access]
  by_cases inside : 0 ≤ lIdx.toInt ∧ lIdx.toInt < heap.getSize c
  · rw [get lIdx.toInt inside.1 inside.2]
    by_cases null : AnythingLookup.doGetAt heap c lIdx.toInt = none
    · rw [if_pos (Or.inr null), if_neg (fun all => all.2.2 null)]
    · rw [if_neg (by rintro (large | same); omega; exact null same),
        if_pos ⟨inside.1, inside.2, null⟩]
  · have null : ROAnythingLookup.at_ heap c lIdx.toInt = none := by
      unfold ROAnythingLookup.at_
      rw [if_pos (by omega)]
    rw [if_pos (Or.inr null), if_neg (fun all => inside ⟨all.1, all.2.1⟩)]

theorem anythingStep_key (c : Handle) (tokPtr : Bytes) (keylen hash : Nat) :
    anythingStep heap c (.key tokPtr keylen hash) =
      (heap.findIndex c tokPtr keylen hash).map fun (lIdx : Nat) =>
        AnythingLookup.doGetAt heap c lIdx := rfl

theorem roAnythingStep_key (c : Handle) (tokPtr : Bytes) (keylen hash : Nat) :
    roAnythingStep heap c (.key tokPtr keylen hash) =
      anythingStep heap c (.key tokPtr keylen hash) := by
  have same : ∀ lIdx : Nat, heap.findIndex c tokPtr keylen hash = some lIdx →
        ROAnythingLookup.at_ heap c lIdx = AnythingLookup.doGetAt heap c lIdx :=
    fun lIdx found => (findIndex_lt_getSize found).2
  rw [anythingStep_key, roAnythingStep, ROAnythingLookup.access]
  cases found : heap.findIndex c tokPtr keylen hash with
  | none => rfl
  | some lIdx => exact congrArg some (same lIdx found)

end

/-!
## The two lookups compared

`Anything::LookupPath` goes on from the first slot where an index number
overflows to a negative one; `ROAnything::LookupPath` fails there.
-/

open PartialSteps

variable {heap : Heap} {c next : Handle} {step : LookupStep}

private theorem doGetAt_negative {lIdx : Int64} (negative : lIdx.toInt < 0) :
    AnythingLookup.doGetAt heap c lIdx.toInt = AnythingLookup.doGetAt heap c 0 := by
  unfold AnythingLookup.doGetAt
  rw [show lIdx.toInt.toNat = (0 : Int).toNat by omega]

theorem anythingStep_of_roAnythingStep (stepped : roAnythingStep heap c step = some next) :
    anythingStep heap c step = some next := by
  cases step with
  | key tokPtr keylen hash =>
    rwa [roAnythingStep_key] at stepped
  | index lIdx =>
    rw [roAnythingStep_index] at stepped
    rw [anythingStep_index]
    split at stepped
    · rename_i inside
      rw [if_pos ⟨by omega, inside.2.1, inside.2.2⟩]
      exact stepped
    · cases stepped

theorem wrapped_step_iff :
    roAnythingStep heap c step = none ∧ anythingStep heap c step = some next ↔
      ∃ lIdx : Int64, step = .index lIdx ∧ lIdx.toInt < 0 ∧
        0 < heap.getSize c ∧ next = AnythingLookup.doGetAt heap c 0 ∧
        next ≠ none := by
  cases step with
  | key tokPtr keylen hash =>
    rw [roAnythingStep_key]
    constructor
    · rintro ⟨fails, goes⟩
      rw [fails] at goes
      cases goes
    · rintro ⟨lIdx, same, -⟩
      cases same
  | index lIdx =>
    rw [roAnythingStep_index, anythingStep_index]
    constructor
    · rintro ⟨fails, goes⟩
      split at goes
      · rename_i inside
        cases goes
        have negative : lIdx.toInt < 0 := by
          by_contra positive
          rw [if_pos ⟨by omega, inside.2.1, inside.2.2⟩] at fails
          cases fails
        refine ⟨lIdx, rfl, negative, inside.1, doGetAt_negative negative, inside.2.2⟩
      · cases goes
    · rintro ⟨lIdx', same, negative, some_, rfl, defined⟩
      cases same
      rw [doGetAt_negative negative]
      refine ⟨if_neg fun inside => ?_, if_pos ⟨some_, by omega, defined⟩⟩
      omega

/-- The path has an index number that overflows to a negative one, the steps
before it lead to an Anything with a first slot that is not Null, and the
rest of the path leads on from this slot. -/
def WrappedIndex (heap : Heap) (any : Handle) (path : Bytes) (delimSlot delimIdx : Byte) : Prop :=
  noDelimiter delimSlot delimIdx (cstr path) = false ∧
  (cstr path).head? ≠ some delimSlot ∧
  ∃ before lIdx after c last, lookupSteps delimSlot delimIdx (cstr path).length (cstr path) =
      some (before ++ .index lIdx :: after) ∧
    follow (roAnythingStep heap) any before = some c ∧
    lIdx.toInt < 0 ∧ 0 < heap.getSize c ∧
    AnythingLookup.doGetAt heap c 0 ≠ none ∧
    follow (anythingStep heap) (AnythingLookup.doGetAt heap c 0) after = some last

theorem goesOn_iff (heap : Heap) (any : Handle) (steps : List LookupStep) :
    GoesOn (roAnythingStep heap) (anythingStep heap) any steps ↔
      ∃ before lIdx after c last, steps = before ++ .index lIdx :: after ∧
        follow (roAnythingStep heap) any before = some c ∧
        lIdx.toInt < 0 ∧ 0 < heap.getSize c ∧
        AnythingLookup.doGetAt heap c 0 ≠ none ∧
        follow (anythingStep heap) (AnythingLookup.doGetAt heap c 0) after = some last := by
  constructor
  · rintro ⟨before, step, after, c, next, last, same, path, fails, goes, ends⟩
    obtain ⟨lIdx, rfl, negative, some_, rfl, defined⟩ := wrapped_step_iff.mp ⟨fails, goes⟩
    exact ⟨before, lIdx, after, c, last, same, path, negative, some_, defined, ends⟩
  · rintro ⟨before, lIdx, after, c, last, same, path, negative, some_, defined, ends⟩
    obtain ⟨fails, goes⟩ := wrapped_step_iff.mpr ⟨lIdx, rfl, negative, some_, rfl, defined⟩
    exact ⟨before, .index lIdx, after, c, _, last, same, path, fails, goes, ends⟩

/-- The two lookups succeed on the same paths and end at the same slot,
unless an index number overflows on the way. -/
theorem lookupPath_agree_iff (heap : Heap) (any : Handle) (path : Bytes)
    (delimSlot delimIdx : Byte) :
    (Anything.lookupPath heap any path delimSlot delimIdx).2 =
        (ROAnything.lookupPath heap any path delimSlot delimIdx).2 ↔
      ¬ WrappedIndex heap any path delimSlot delimIdx := by
  unfold Anything.lookupPath ROAnything.lookupPath lookupWith WrappedIndex
  simp only
  by_cases shortcut : noDelimiter delimSlot delimIdx (cstr path) = true
  · rw [if_pos shortcut, if_pos shortcut]
    refine ⟨fun _ wrapped => ?_, fun _ => ?_⟩
    · rw [shortcut] at wrapped
      cases wrapped.1
    · cases found : heap.findIndex any (cstr path) 0 0 with
      | none => rfl
      | some lIdx => exact congrArg some (findIndex_lt_getSize found).2.symm
  · rw [if_neg shortcut, if_neg shortcut]
    by_cases slotFirst : (cstr path).head? = some delimSlot
    · rw [if_pos slotFirst, if_pos slotFirst]
      exact ⟨fun _ wrapped => wrapped.2.1 slotFirst, fun _ => rfl⟩
    · rw [if_neg slotFirst, if_neg slotFirst, lookupLoop_eq_follow anything_reads,
        lookupLoop_eq_follow roAnything_reads]
      have delimited : noDelimiter delimSlot delimIdx (cstr path) = false := by simpa using shortcut
      cases scanned : lookupSteps delimSlot delimIdx (cstr path).length (cstr path) with
      | none =>
        refine ⟨fun _ wrapped => ?_, fun _ => rfl⟩
        obtain ⟨-, -, before, lIdx, after, c, last, same, -⟩ := wrapped
        cases same
      | some steps =>
        have compared := follow_eq_iff (roAnythingStep heap) (anythingStep heap)
          (fun _ _ _ stepped => anythingStep_of_roAnythingStep stepped)
          any steps
        rw [goesOn_iff] at compared
        refine compared.trans (not_congr ?_)
        constructor
        · rintro ⟨before, lIdx, after, c, last, same, rest⟩
          exact ⟨delimited, slotFirst, before, lIdx, after, c, last, congrArg some same, rest⟩
        · rintro ⟨-, -, before, lIdx, after, c, last, same, rest⟩
          exact ⟨before, lIdx, after, c, last, Option.some.inj same, rest⟩

def oneLong : Heap := [.array [([], some 1)], .long 5]

theorem not_lookupPath_agree :
    (Anything.lookupPath oneLong (some 0) (lit ":9223372036854775808") (ch '.') (ch ':')).2 ≠
      (ROAnything.lookupPath oneLong (some 0) (lit ":9223372036854775808")
        (ch '.') (ch ':')).2 := by
  decide +kernel

end Coast
