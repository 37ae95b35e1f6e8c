import Coast.Base.AnyArrayRuns
import Coast.Base.Decimal

/-!
# Looking up a path

`Anything::LookupPath` and `ROAnything::LookupPath` scan a path in the same
way and access the slots with different functions.
-/

namespace Coast

/-- `FindIndex(key, sizehint, hashhint)`: with a computed hash the key is
the beginning of the text, without one it is all of it. -/
def Slots.findIndexHint {α : Type} (slots : Slots α) (text : Bytes)
    (sizehint hashhint : Nat) : Option Nat :=
  slots.findIndex (if hashhint ≠ 0 then text.take sizehint else text)

def hashWord (text : Bytes) (stop1 stop2 : Byte) : Bytes :=
  text.takeWhile fun c =>
    c ≠ 0 && !isHashStop stop1 c && !isHashStop stop2 c

theorem hashWord_nulFree (text : Bytes) (stop1 stop2 : Byte) :
    NulFree (hashWord text stop1 stop2) := by
  intro member
  have passed := List.mem_takeWhile_imp member
  simp at passed

theorem ifaHash_eq (text : Bytes) (stop1 stop2 : Byte) :
    ifaHash text stop1 stop2 = (keyHash (hashWord text stop1 stop2),
      (hashWord text stop1 stop2).length) := by
  have whole := ifaHash_of_nulFree (hashWord_nulFree text stop1 stop2)
  have folded : keyHash (hashWord text stop1 stop2) =
      (hashWord text stop1 stop2).foldl ifaHashStep 0 := by
    have word : (hashWord text stop1 stop2).takeWhile (fun c =>
        c ≠ 0 && !isHashStop 0 c && !isHashStop 0 c) = hashWord text stop1 stop2 := by
      apply List.IsPrefix.eq_of_length (List.takeWhile_prefix _)
      exact congrArg Prod.snd whole
    unfold keyHash ifaHash
    simp only [word]
  rw [folded]
  rfl

theorem take_hashWord (text : Bytes) (stop1 stop2 : Byte) :
    text.take (hashWord text stop1 stop2).length = hashWord text stop1 stop2 :=
  (List.prefix_iff_eq_take.mp (List.takeWhile_prefix _)).symm

def keyPrefix (text : Bytes) (stop1 stop2 : Byte) : Bytes :=
  text.takeWhile fun c => c ≠ 0 && c ≠ stop1 && c ≠ stop2

def hashLong (text : Bytes) (stop1 stop2 : Byte) : Int :=
  (BitVec.ofNat 64 (ifaHash text stop1 stop2).1).toInt

theorem hashLong_eq (text : Bytes) (stop1 stop2 : Byte) :
    hashLong text stop1 stop2 = (ifaHash text stop1 stop2).1 := by
  have small := ifaHash_lt text stop1 stop2
  rw [hashLong, BitVec.toInt, BitVec.toNat_ofNat, Nat.mod_eq_of_lt (by omega), if_pos (by omega)]

theorem isHashStop_iff (stop c : Byte) : isHashStop stop c = true ↔ c = stop ∧ c < 128 := by
  rw [isHashStop, decide_eq_true_eq, BitVec.toInt, BitVec.lt_def, ← BitVec.toNat_inj]
  have bound := c.isLt
  split <;> simp <;> omega

theorem hashWord_eq_keyPrefix_iff (stop1 stop2 : Byte) (text : Bytes) :
    hashWord text stop1 stop2 = keyPrefix text stop1 stop2 ↔
      ∀ c, text[(keyPrefix text stop1 stop2).length]? = some c → c < 128 := by
  induction text with
  | nil => simp [hashWord, keyPrefix]
  | cons c text ih =>
    rw [hashWord, keyPrefix] at ih
    rw [hashWord, keyPrefix, List.takeWhile_cons, List.takeWhile_cons]
    by_cases inside : (c ≠ 0 && c ≠ stop1 && c ≠ stop2) = true
    · have passes : (c ≠ 0 && !isHashStop stop1 c && !isHashStop stop2 c) = true := by
        simp_all [← Bool.not_eq_true, isHashStop_iff]
      rw [if_pos inside, if_pos passes, List.cons.injEq, List.length_cons, List.getElem?_cons_succ]
      simpa using ih
    · rw [if_neg inside, List.length_nil, List.getElem?_cons_zero]
      have stops : (c ≠ 0 && !isHashStop stop1 c && !isHashStop stop2 c) = true ↔ ¬ c < 128 := by
        have nul : c = 0 → c < 128 := by
          rintro rfl
          decide
        simp only [Bool.and_eq_true, Bool.not_eq_true', ← Bool.not_eq_true, isHashStop_iff,
          decide_eq_true_eq] at inside ⊢
        tauto
      split
      · rename_i passes
        simpa using stops.mp passes
      · rename_i stopped
        simpa using not_not.mp (mt stops.mpr stopped)

/-- The hash is not negative, and what it is taken modulo bounds it.  It is
the hash of the text in front of the first stop character or NUL exactly when
this is below 128: a `char` from there on is never equal to an `unsigned char`. -/
theorem ifaHash_keyPrefix_iff (text : Bytes) (stop1 stop2 : Byte) :
    (0 ≤ hashLong text stop1 stop2 ∧ ∀ fCapacity : Int, 0 < fCapacity →
      0 ≤ (hashLong text stop1 stop2).tmod fCapacity ∧
        (hashLong text stop1 stop2).tmod fCapacity < fCapacity) ∧
    (ifaHash text stop1 stop2 = (keyHash (keyPrefix text stop1 stop2),
        (keyPrefix text stop1 stop2).length) ↔
      ∀ c, text[(keyPrefix text stop1 stop2).length]? = some c → c < 128) := by
  have positive : 0 ≤ hashLong text stop1 stop2 := hashLong_eq .. ▸ Int.natCast_nonneg _
  refine ⟨⟨positive, fun fCapacity some => ⟨Int.tmod_nonneg _ positive, ?_⟩⟩, ?_⟩
  · exact Int.tmod_lt_of_pos _ some
  · rw [← hashWord_eq_keyPrefix_iff, ifaHash_eq]
    constructor
    · intro same
      have front : keyPrefix text stop1 stop2 = text.take (keyPrefix text stop1 stop2).length :=
        List.prefix_iff_eq_take.mp (List.takeWhile_prefix _)
      rw [front, ← (Prod.mk.inj same).2, take_hashWord]
    · intro same
      rw [same]

/-- A stop character from 128 on does not stop. -/
theorem not_ifaHash_keyPrefix : ¬ ∀ (text : Bytes) (stop1 stop2 : Byte),
    (ifaHash text stop1 stop2).2 = (keyPrefix text stop1 stop2).length := by
  intro all
  exact absurd (all [0xe4] 0xe4 0) (by decide)

theorem AnyArrayImpl.Good.findIndex_hint {α : Type} [Inhabited α] {impl : AnyArrayImpl α}
    (good : impl.Good) {text : Bytes} (nulFree : NulFree text) (stop1 stop2 : Byte) :
    impl.findIndex text (ifaHash text stop1 stop2).2
        (ifaHash text stop1 stop2).1 =
      impl.slots.findIndexHint text (ifaHash text stop1 stop2).2 (ifaHash text stop1 stop2).1 := by
  rw [ifaHash_eq]
  unfold Slots.findIndexHint
  have wordFree := hashWord_nulFree text stop1 stop2
  by_cases computed : keyHash (hashWord text stop1 stop2) = 0
  · rw [if_neg (by simpa using computed), computed, ← good.findIndex_eq nulFree]
    rfl
  · rw [if_pos computed, take_hashWord, ← good.findIndex_eq wordFree]
    unfold findIndex
    congr 1
    funext keys
    exact AnyKeyTable.at_hint impl.keyAt keys wordFree rfl computed (take_hashWord text stop1 stop2)

/-- In an array that a run makes, a key of a path leads to where it stands. -/
theorem AnyArrayImpl.run_findIndex_hint {α : Type} [Inhabited α] (steps : List (Step α))
    (allowed : AllowedRun steps (empty : AnyArrayImpl α)) {text : Bytes} (nulFree : NulFree text)
    (stop1 stop2 : Byte) :
    ∃ impl, run steps (empty : AnyArrayImpl α) = some impl ∧
      impl.findIndex text (ifaHash text stop1 stop2).2 (ifaHash text stop1 stop2).1 =
        (plainRun steps []).findIndexHint text (ifaHash text stop1 stop2).2
          (ifaHash text stop1 stop2).1 := by
  obtain ⟨impl, done, good, same⟩ := Good.run steps empty_good allowed
  rw [slots_empty] at same
  exact ⟨impl, done, same ▸ good.findIndex_hint nulFree stop1 stop2⟩

theorem AnyArrayImpl.run_findIndex_hint_example :
    ∃ impl, run exampleRun empty = some impl ∧
      impl.findIndex (lit "a.b") 1 (ifaHash (lit "a.b") (ch '.') (ch ':')).1 =
        (plainRun exampleRun []).findIndexHint (lit "a.b") 1
          (ifaHash (lit "a.b") (ch '.') (ch ':')).1 :=
  run_findIndex_hint exampleRun (by decide +kernel) (by decide) (ch '.') (ch ':')

namespace Heap

def getSize (heap : Heap) (c : Handle) : Nat :=
  match heap.impl c with
  | none => 0
  | some (.array slots) => slots.length
  | some _ => 1

def findIndex (heap : Heap) (c : Handle) (text : Bytes) (sizehint hashhint : Nat) : Option Nat :=
  match heap.impl c with
  | some (.array slots) => slots.findIndexHint text sizehint hashhint
  | _ => none

def slot (slots : Slots Handle) (i : Nat) : Handle := (slots[i]?.map Prod.snd).join

end Heap

/-- What one turn of the loop reads: an index number, or a key with its
length and its hash in front of the rest of the path. -/
inductive LookupStep where
  | index (lIdx : Int64)
  | key (tokPtr : Bytes) (keylen hash : Nat)
  deriving DecidableEq, Repr

/-- The number of an index; the `long` may overflow. -/
def lookupNumber (digits : Bytes) : Int64 :=
  digits.foldl (fun lIdx c => lIdx * 10 + Int64.ofNat (c.toNat - (ch '0').toNat)) 0

section Scan

variable (delimSlot delimIdx : Byte)

def endsToken (tokPtr : Bytes) : Bool :=
  match tokPtr with
  | [] => true
  | c :: _ => c = delimIdx || c = delimSlot

/-- The next token of a path, and the path behind it. -/
def scanStep : Bytes → Option (LookupStep × Bytes)
  | [] => none
  | c :: tokPtr =>
    if c = delimIdx then
      if endsToken delimSlot delimIdx tokPtr then none
      else
        let digits := tokPtr.takeWhile isdigit
        let rest := tokPtr.dropWhile isdigit
        if endsToken delimSlot delimIdx rest then
          some (.index (lookupNumber digits), rest)
        else none
    else if c = delimSlot && endsToken delimSlot delimIdx tokPtr then none
    else
      let tokPtr := if c = delimSlot then tokPtr else c :: tokPtr
      let (h, keylen) := ifaHash tokPtr delimSlot delimIdx
      some (.key tokPtr keylen h, tokPtr.drop keylen)

/-- Token after token, as long as there is something to go on from. -/
def lookupLoop (access : Heap → Handle → LookupStep → Heap × Option Handle) :
    Nat → Heap → Handle → Bytes → Heap × Option Handle
  | 0, heap, _, _ => (heap, none)
  | fuel + 1, heap, c, tokPtr =>
    match scanStep delimSlot delimIdx tokPtr with
    | none => (heap, none)
    | some (step, rest) =>
      match access heap c step with
      | (heap, none) => (heap, none)
      | (heap, some c) =>
        if rest = [] then (heap, some c)
        else lookupLoop access fuel heap c rest

/-- The shortcut is taken: a delimiter is missing, or not in the path. -/
def noDelimiter (path : Bytes) : Bool :=
  delimSlot = 0 || delimIdx = 0 || (!path.contains delimSlot && !path.contains delimIdx)

/-- The body of both functions; `get` is the access of the shortcut. -/
def lookupWith (get : Heap → Handle → Nat → Handle)
    (access : Heap → Handle → LookupStep → Heap × Option Handle)
    (heap : Heap) (any : Handle) (path : Bytes) : Heap × Option Handle :=
  let path := cstr path
  if noDelimiter delimSlot delimIdx path then
    (heap, (heap.findIndex any path 0 0).map (get heap any))
  else if path.head? = some delimSlot then (heap, none)
  else
    lookupLoop delimSlot delimIdx access path.length heap any path

end Scan

namespace AnythingLookup

def doGetAt (heap : Heap) (c : Handle) (i : Int) : Handle :=
  match heap.impl c with
  | some (.array slots) => Heap.slot slots i.toNat
  | _ => c

/-- `At`: an array grows up to the index. -/
def at_ (heap : Heap) (c : Handle) (i : Int) : Heap × Handle :=
  match heap.impl c with
  | none => (heap, none)
  | some (.array slots) =>
    if i.toNat < slots.length then (heap, Heap.slot slots i.toNat)
    else
      (heap.set (c.getD 0) (.array (slots ++
        List.replicate (i.toNat + 1 - slots.length) ([], none))), none)
  | some _ => (heap, if 0 < i then none else c)

/-- One step of `LookupPath`; an index of a Null slot is not followed. -/
def access (heap : Heap) (c : Handle) : LookupStep → Heap × Option Handle
  | .index lIdx =>
    if (heap.getSize c : Int) ≤ lIdx.toInt then (heap, none)
    else
      let (heap, slot) := at_ heap c lIdx.toInt
      if slot = none then (heap, none)
      else (heap, some (doGetAt heap c lIdx.toInt))
  | .key tokPtr keylen hash =>
    (heap, (heap.findIndex c tokPtr keylen hash).map fun (lIdx : Nat) =>
      doGetAt heap c lIdx)

end AnythingLookup

namespace ROAnythingLookup

def at_ (heap : Heap) (c : Handle) (i : Int) : Handle :=
  if i < 0 ∨ (heap.getSize c : Int) ≤ i then none
  else
    match heap.impl c with
    | some (.array slots) => Heap.slot slots i.toNat
    | _ => c

def access (heap : Heap) (c : Handle) : LookupStep → Heap × Option Handle
  | .index lIdx =>
    if (heap.getSize c : Int) ≤ lIdx.toInt ∨ at_ heap c lIdx.toInt = none then (heap, none)
    else (heap, some (at_ heap c lIdx.toInt))
  | .key tokPtr keylen hash =>
    (heap, (heap.findIndex c tokPtr keylen hash).map fun (lIdx : Nat) =>
      at_ heap c lIdx)

end ROAnythingLookup

def Anything.lookupPath (heap : Heap) (any : Handle) (path : Bytes)
    (delimSlot delimIdx : Byte) : Heap × Option Handle :=
  lookupWith delimSlot delimIdx (fun heap c lIdx => AnythingLookup.doGetAt heap c lIdx)
    AnythingLookup.access heap any path

def ROAnything.lookupPath (heap : Heap) (any : Handle) (path : Bytes)
    (delimSlot delimIdx : Byte) : Heap × Option Handle :=
  lookupWith delimSlot delimIdx (fun heap c lIdx => ROAnythingLookup.at_ heap c lIdx)
    ROAnythingLookup.access heap any path

end Coast
