import Coast.Base.Bytes
import Coast.Library.LinearProbing

/-!
# The key table of an array

`AnyKeyTable` finds the slots of an array by their keys: a hash table with
linear probing that holds slot indices.  The keys themselves are in the
array, so the operations take the key of every slot as an argument.
-/

namespace Coast

open LinearProbing List Nat

def ifaHashStep (h : Nat) (c : Byte) : Nat :=
  let h := (16 * h + c.toNat) % 2 ^ 64
  let g := h &&& 0xf0000000
  if g ≠ 0 then (h ^^^ (g >>> 24)) ^^^ g else h

/-- `*p == stop`: the `unsigned char` is compared with a `char`. -/
def isHashStop (stop c : Byte) : Bool := (c.toNat : Int) = stop.toInt

/-- `IFAHash`: the hash of a text up to the characters that end a key, and
the number of characters before them. -/
def ifaHash (key : Bytes) (stop1 stop2 : Byte) : Nat × Nat :=
  let word := key.takeWhile fun c =>
    c ≠ 0 && !isHashStop stop1 c && !isHashStop stop2 c
  (word.foldl ifaHashStep 0, word.length)

def keyHash (key : Bytes) : Nat := (ifaHash key 0 0).1

theorem ifaHash_of_nulFree {key : Bytes} (nulFree : NulFree key) :
    ifaHash key 0 0 = (keyHash key, key.length) := by
  have word : key.takeWhile (fun c =>
      c ≠ 0 && !isHashStop 0 c && !isHashStop 0 c) = key := by
    rw [takeWhile_eq_self_iff]
    intro c member
    have notNul : c ≠ 0 := fun zero => nulFree (zero ▸ member)
    clear member
    revert c
    decide
  unfold keyHash ifaHash
  simp only [word]

/-- What keeps the hash, a `long`, from getting negative: above the bits
that `IFAHash` clears there is at most the lowest bit of each digit. -/
structure HashDigits (h : Nat) : Prop where
  bounded : h < 2 ^ 64
  cleared : ∀ i, 28 ≤ i → i < 32 → h.testBit i = false
  carried : ∀ i, 32 ≤ i → h.testBit i = true → i % 4 = 0

private theorem hashDigits_shift {h c : Nat} (digits : HashDigits h) (byte : c < 256) {i : Nat}
    (high : 32 ≤ i) (set : (16 * h + c).testBit i = true) : i % 4 = 0 := by
  have low : h % 2 ^ 32 < 2 ^ 28 := by
    apply lt_pow_two_of_testBit
    intro j above
    rw [testBit_mod_two_pow]
    by_cases inside : j < 32
    · rw [digits.cleared j above inside, Bool.and_false]
    · rw [decide_eq_false inside, Bool.false_and]
  -- the carry out of the lower half is at most one
  have split : 16 * h + c = 2 ^ 32 * (2 ^ 4 * (h / 2 ^ 32) +
      (16 * (h % 2 ^ 32) + c) / 2 ^ 32) + (16 * (h % 2 ^ 32) + c) % 2 ^ 32 := by
    omega
  have carry : (16 * (h % 2 ^ 32) + c) / 2 ^ 32 ≤ 1 := by
    omega
  generalize (16 * (h % 2 ^ 32) + c) / 2 ^ 32 = k at split carry
  rw [split, testBit_two_pow_mul_add _ (Nat.mod_lt _ (by decide)),
    if_neg (by omega), testBit_two_pow_mul_add _ (by omega)] at set
  split at set
  · rename_i inside
    have lowest : ∀ k < 2, ∀ j < 4, k.testBit j = true → j = 0 := by
      decide
    have first := lowest k (by omega) (i - 32) inside set
    omega
  · have old : h.testBit (i - 4) = true := by
      rw [testBit_div_two_pow] at set
      rwa [show i - 32 - 4 + 32 = i - 4 by omega] at set
    have divisible := digits.carried (i - 4) (by omega) old
    omega

private theorem hashDigits_step {h : Nat} (digits : HashDigits h)
    (c : Byte) : HashDigits (ifaHashStep h c) := by
  set shifted := (16 * h + c.toNat) % 2 ^ 64 with shiftedDef
  set g := shifted &&& 0xf0000000 with gDef
  have gBits : ∀ i, g.testBit i = (shifted.testBit i && decide (28 ≤ i ∧ i < 32)) := by
    intro i
    have mask : (0xf0000000 : Nat).testBit i = decide (28 ≤ i ∧ i < 32) := by
      rw [show (0xf0000000 : Nat) = 2 ^ 28 * 15 + 0 from rfl,
        testBit_two_pow_mul_add _ (by decide), zero_testBit]
      have digit : ∀ j, Nat.testBit 15 j = decide (j < 4) := by
        intro j
        exact testBit_two_pow_sub_one 4 j
      rw [digit]
      by_cases early : i < 28
      · rw [if_pos early, decide_eq_false (by omega)]
      · rw [if_neg early]
        congr 1
        rw [eq_iff_iff]
        omega
    rw [gDef, testBit_and, mask]
  have step : ifaHashStep h c = (shifted ^^^ (g >>> 24)) ^^^ g := by
    unfold ifaHashStep
    simp only [← shiftedDef, ← gDef]
    by_cases zero : g = 0
    · rw [if_neg (by simpa using zero), zero]
      simp
    · rw [if_pos zero]
  have late : ∀ i, 28 ≤ i → (g >>> 24).testBit i = false := by
    intro i above
    rw [testBit_shiftRight, gBits, decide_eq_false (by omega), Bool.and_false]
  rw [step]
  have bounded : shifted < 2 ^ 64 := Nat.mod_lt _ (by decide)
  refine ⟨?_, ?_, ?_⟩
  · apply lt_pow_two_of_testBit
    intro i above
    rw [testBit_xor, testBit_xor, late i (by omega), gBits,
      decide_eq_false (by omega), testBit_lt_two_pow
        (lt_of_lt_of_le bounded (Nat.pow_le_pow_right (by decide) above))]
    rfl
  · intro i above inside
    rw [testBit_xor, testBit_xor, late i above, gBits, decide_eq_true ⟨above, inside⟩]
    simp
  · intro i above set
    rw [testBit_xor, testBit_xor, late i (by omega), gBits,
      decide_eq_false (by omega), Bool.and_false, Bool.xor_false,
      Bool.xor_false, shiftedDef, testBit_mod_two_pow] at set
    exact hashDigits_shift digits c.isLt above (Bool.and_eq_true_iff.mp set).2

theorem ifaHash_lt (text : Bytes) (stop1 stop2 : Byte) : (ifaHash text stop1 stop2).1 < 2 ^ 63 := by
  have folded : ∀ (word : Bytes) {h : Nat}, HashDigits h →
      HashDigits (word.foldl ifaHashStep h) := by
    intro word
    induction word with
    | nil =>
      intro h digits
      exact digits
    | cons c word ih =>
      intro h digits
      exact ih (hashDigits_step digits c)
  have start : HashDigits 0 := by
    refine ⟨by decide, ?_, ?_⟩
    · intro i _ _
      exact zero_testBit i
    · intro i _ set
      rw [zero_testBit] at set
      cases set
  have digits : HashDigits (ifaHash text stop1 stop2).1 := folded _ start
  apply lt_pow_two_of_testBit
  intro i above
  by_cases last : i = 63
  · by_contra set
    have divisible := digits.carried i (by omega) (by simpa using set)
    omega
  · exact testBit_lt_two_pow (lt_of_lt_of_le digits.bounded
      (Nat.pow_le_pow_right (by decide) (by omega)))

def ifaNoDivisor (x : Nat) : Nat → Nat → Bool
  | 0, _ => true
  | fuel + 1, n =>
    if n * n ≤ x then
      if x % n ≠ 0 then ifaNoDivisor x fuel (n + 2) else false
    else true

def ifaNextPrimeFrom : Nat → Nat → Nat
  | 0, x => x
  | fuel + 1, x =>
    if ifaNoDivisor x x 3 then x else ifaNextPrimeFrom fuel (x + 2)

/-- `IFANextPrime`.  There is a prime before twice the number. -/
def ifaNextPrime (x : Nat) : Nat :=
  if x ≤ 3 then 3 else ifaNextPrimeFrom x (if x % 2 = 0 then x + 1 else x)

theorem le_ifaNextPrimeFrom (fuel : Nat) : ∀ x : Nat, x ≤ ifaNextPrimeFrom fuel x := by
  induction fuel with
  | zero =>
    intro x
    exact le_refl x
  | succ fuel ih =>
    intro x
    rw [ifaNextPrimeFrom]
    split
    · exact le_refl x
    · exact le_trans (by omega) (ih (x + 2))

theorem le_ifaNextPrime (x : Nat) : x ≤ ifaNextPrime x := by
  unfold ifaNextPrime
  split
  · assumption
  · refine le_trans ?_ (le_ifaNextPrimeFrom x _)
    split <;> omega

/-- Open addressing: the buckets hold places of slots. -/
structure AnyKeyTable where
  /-- A free bucket is marked with -1, a deleted one with -2. -/
  fHashTable : List (Bucket Nat)
  fThreshold : Nat
  deriving DecidableEq, Repr

namespace AnyKeyTable

def fCapacity (t : AnyKeyTable) : Nat := t.fHashTable.length

def cInitCapacity : Nat := 17

def initTable (cap : Nat) : AnyKeyTable :=
  let cap := ifaNextPrime (if cap < cInitCapacity then cInitCapacity else cap)
  ⟨List.replicate cap .free, (3 * cap) / 4⟩

def clear (t : AnyKeyTable) : AnyKeyTable :=
  { t with fHashTable := List.replicate t.fCapacity .free }

/-- `DoHash`: the bucket with the key or the one that ends the search.  A
hash hint of zero means that the hash was not computed. -/
def doHash (keyAt : Nat → Bytes) (t : AnyKeyTable) (key : Bytes)
    (append : Bool) (sizehint hashhint : Nat) : Option Nat :=
  let (hashval, keylen) := if hashhint ≠ 0 then (hashhint, sizehint) else ifaHash key 0 0
  search t.fHashTable (fun lIdx => keyAt lIdx = key.take keylen) append (hashval % t.fCapacity)

def at_ (keyAt : Nat → Bytes) (t : AnyKeyTable) (key : Bytes)
    (sizehint hashhint : Nat) : Option Nat :=
  match (doHash keyAt t key false sizehint hashhint).bind
      fun lIdx => t.fHashTable[lIdx]? with
  | some (.entry slot) => some slot
  | _ => none

/-- `fHashTable[DoHash(key, append)] = slot`; nothing is left when there is
no bucket, and the code writes before the table. -/
def place (keyAt : Nat → Bytes) (t : AnyKeyTable) (key : Bytes)
    (append : Bool) (slot : Nat) : Option AnyKeyTable :=
  (doHash keyAt t key append 0 0).map fun lIdx =>
    { t with fHashTable := t.fHashTable.set lIdx (.entry slot) }

def rehashFrom (keyAt : Nat → Bytes) : List (Bucket Nat) → AnyKeyTable → Option AnyKeyTable
  | [], t => some t
  | .entry slot :: ot, t =>
    (place keyAt t (keyAt slot) false slot).bind (rehashFrom keyAt ot)
  | _ :: ot, t => rehashFrom keyAt ot t

def rehash (keyAt : Nat → Bytes) (t : AnyKeyTable) (newCap : Nat) : Option AnyKeyTable :=
  rehashFrom keyAt t.fHashTable (initTable newCap)

/-- A key is entered, after the table has grown if it is too full. -/
def append (keyAt : Nat → Bytes) (size : Nat) (t : AnyKeyTable)
    (key : Option Bytes) (atIndex : Nat) : Option AnyKeyTable :=
  match key with
  | none => some t
  | some key =>
    let grown :=
      if t.fThreshold < size then rehash keyAt t (t.fCapacity * 2)
      else some t
    grown.bind fun t => place keyAt t key true atIndex

def updateRemoved (t : AnyKeyTable) (fromIndex : Nat) : AnyKeyTable :=
  { t with
    fHashTable := t.fHashTable.map (renameBucket fun lIdx =>
      if lIdx = fromIndex then none
      else if fromIndex < lIdx then some (lIdx - 1)
      else some lIdx) }

def updateInserted (t : AnyKeyTable) (fromIndex size : Nat) : AnyKeyTable :=
  { t with
    fHashTable := t.fHashTable.map (renameBucket fun lIdx =>
      if fromIndex ≤ lIdx then some (lIdx + size) else some lIdx) }

/-- The table finds every slot in `member` by its key, and has room. -/
structure Ok (t : AnyKeyTable) (keyAt : Nat → Bytes) (member : Nat → Prop) : Prop where
  holds : Holds t.fHashTable (fun slot => keyHash (keyAt slot) % t.fCapacity) member
  threshold : t.fThreshold = 3 * t.fCapacity / 4
  capacity : cInitCapacity ≤ t.fCapacity
  room : used t.fHashTable ≤ t.fThreshold + 1

/-- The keys of the members are found by themselves only. -/
structure Keyed (keyAt : Nat → Bytes) (member : Nat → Prop) : Prop where
  nulFree : ∀ slot, member slot → NulFree (keyAt slot)
  injective : ∀ slot slot', member slot → member slot' → keyAt slot = keyAt slot' → slot = slot'

variable {t : AnyKeyTable} {keyAt : Nat → Bytes} {member : Nat → Prop}

theorem Ok.used_lt (ok : Ok t keyAt member) : used t.fHashTable < t.fCapacity := by
  have room := ok.room
  have capacity := ok.capacity
  rw [ok.threshold] at room
  unfold cInitCapacity at capacity
  omega

theorem ok_replicate (keyAt : Nat → Bytes) {cap threshold : Nat}
    (same : threshold = 3 * cap / 4) (enough : cInitCapacity ≤ cap) :
    Ok ⟨List.replicate cap .free, threshold⟩ keyAt (fun _ => False) where
  holds := holds_replicate cap _
  threshold := by
    rw [fCapacity, length_replicate, same]
  capacity := by
    rw [fCapacity, length_replicate]
    exact enough
  room := by
    rw [used_replicate]
    omega

theorem initTable_ok (keyAt : Nat → Bytes) (cap : Nat) :
    Ok (initTable cap) keyAt (fun _ => False) ∧ cap ≤ (initTable cap).fCapacity := by
  unfold initTable
  have bound := le_ifaNextPrime (if cap < cInitCapacity then cInitCapacity else cap)
  refine ⟨ok_replicate keyAt rfl ?_, ?_⟩
  · refine le_trans ?_ bound
    split <;> omega
  · rw [fCapacity, length_replicate]
    refine le_trans ?_ bound
    split <;> omega

theorem clear_ok (ok : Ok t keyAt member) (keyAt' : Nat → Bytes) :
    Ok t.clear keyAt' (fun _ => False) :=
  ok_replicate keyAt' ok.threshold ok.capacity

variable {key : Bytes}

theorem doHash_key (nulFree : NulFree key) (append : Bool) :
    doHash keyAt t key append 0 0 =
      search t.fHashTable (fun lIdx => keyAt lIdx = key) append (keyHash key % t.fCapacity) := by
  unfold doHash
  simp only [ne_eq, not_true, if_false, ifaHash_of_nulFree nulFree, take_length]

theorem doHash_hint (text : Bytes) (append : Bool) {sizehint hashhint : Nat}
    (computed : hashhint ≠ 0) :
    doHash keyAt t text append sizehint hashhint =
      search t.fHashTable (fun lIdx => keyAt lIdx = text.take sizehint)
        append (hashhint % t.fCapacity) := by
  unfold doHash
  simp only [ne_eq, computed, not_false_eq_true, if_true]

section

variable (ok : Ok t keyAt member)
include ok

theorem Ok.mod_lt (hash : Nat) :
    hash % t.fCapacity < t.fHashTable.length := by
  have capacity := ok.capacity
  unfold cInitCapacity at capacity
  exact Nat.mod_lt _ (by omega)

theorem Ok.search_key (keyed : Keyed keyAt member) (key : Bytes) :
    (∀ slot, member slot → keyAt slot = key →
      ∃ place, search t.fHashTable (fun lIdx => keyAt lIdx = key) false
          (keyHash key % t.fCapacity) = some place ∧
        t.fHashTable[place]? = some (.entry slot)) ∧
    ((∀ slot, member slot → keyAt slot ≠ key) →
      ∀ place slot, search t.fHashTable (fun lIdx => keyAt lIdx = key) false
          (keyHash key % t.fCapacity) = some place →
        t.fHashTable[place]? ≠ some (.entry slot)) := by
  constructor
  · intro slot isMember same
    subst same
    exact search_member ok.holds isMember (by simp)
      (fun other isOther hit => keyed.injective other slot isOther isMember (by simpa using hit))
  · intro absent place slot found
    exact search_absent ok.holds (fun other isOther => by simpa using absent other isOther)
      (ok.mod_lt _) found slot

theorem Ok.at_key (keyed : Keyed keyAt member) (nulFree : NulFree key) :
    (∀ slot, member slot → keyAt slot = key → at_ keyAt t key 0 0 = some slot) ∧
    ((∀ slot, member slot → keyAt slot ≠ key) → at_ keyAt t key 0 0 = none) := by
  obtain ⟨present, absent⟩ := ok.search_key keyed key
  unfold at_
  rw [doHash_key nulFree]
  constructor
  · intro slot isMember same
    obtain ⟨place, found, bucket⟩ := present slot isMember same
    rw [found, Option.bind_some, bucket]
  · intro nowhere
    cases found : search t.fHashTable (fun lIdx => keyAt lIdx = key) false
        (keyHash key % t.fCapacity) with
    | none => rfl
    | some place =>
      have noEntry := absent nowhere place
      rw [Option.bind_some]
      split
      · rename_i slot bucket
        exact absurd bucket (noEntry slot found)
      · rfl

end

theorem at_hint (keyAt : Nat → Bytes) (t : AnyKeyTable) {text : Bytes} (nulFree : NulFree key)
    {hashhint : Nat} (hash : hashhint = keyHash key) (computed : hashhint ≠ 0)
    (begins : text.take key.length = key) :
    at_ keyAt t text key.length hashhint = at_ keyAt t key 0 0 := by
  unfold at_
  rw [doHash_hint text false computed, doHash_key nulFree, begins, hash]

/-! ## Changing the table -/

variable {keyAt' : Nat → Bytes}

theorem Ok.place_new (ok : Ok t keyAt member) {slot : Nat} (nulFree : NulFree key)
    (new : ¬ member slot) (absent : ∀ other, member other → keyAt other ≠ key) (append : Bool)
    (free : append = true ∨ Bucket.deleted ∉ t.fHashTable) (room : used t.fHashTable ≤ t.fThreshold)
    (here : keyAt' slot = key) (there : ∀ other, member other → keyAt' other = keyAt other) :
    ∃ t', place keyAt t key append slot = some t' ∧
      Ok t' keyAt' (fun other => member other ∨ other = slot) ∧
      t'.fThreshold = t.fThreshold ∧
      used t'.fHashTable ≤ used t.fHashTable + 1 ∧
      (Bucket.deleted ∉ t.fHashTable → Bucket.deleted ∉ t'.fHashTable) := by
  have inside := ok.mod_lt (keyHash key)
  obtain ⟨lIdx, found⟩ := exists_search (fun lIdx => keyAt lIdx = key) inside free ok.used_lt
  have renamed := ok.holds.congr
    (fun other => keyHash (keyAt' other) % t.fCapacity) (fun _ => Iff.rfl)
    (fun other isMember => by rw [there other isMember])
  have fromHome : search t.fHashTable (fun lIdx => keyAt lIdx = key) append
      (keyHash (keyAt' slot) % t.fCapacity) = some lIdx := by
    rw [here]
    exact found
  have result := renamed.insert new
    (by rw [here]; exact inside) (fun lIdx => keyAt lIdx = key)
    (fun other isMember => by simpa using absent other isMember) fromHome
  have grown := used_set_le t.fHashTable lIdx slot
  refine ⟨{ t with fHashTable := t.fHashTable.set lIdx (.entry slot) }, ?_,
    ⟨?_, ?_, ?_, ?_⟩, rfl, grown, ?_⟩
  · unfold place
    rw [doHash_key nulFree, found]
    rfl
  · unfold fCapacity at result ⊢
    rw [length_set]
    exact result
  · unfold fCapacity
    rw [length_set]
    exact ok.threshold
  · unfold fCapacity
    rw [length_set]
    exact ok.capacity
  · exact le_trans grown (succ_le_succ room)
  · intro undeleted again
    rcases mem_or_eq_of_mem_set again with old | same
    · exact undeleted old
    · cases same

theorem Ok.rehashFrom (ot : List (Bucket Nat)) :
    ∀ {t : AnyKeyTable} {placed : Nat → Prop}, Ok t keyAt placed →
      (∀ slot, member slot ↔ placed slot ∨ slot ∈ entries ot) →
      Keyed keyAt member → (entries ot).Nodup →
      (∀ slot ∈ entries ot, ¬ placed slot) →
      Bucket.deleted ∉ t.fHashTable →
      used t.fHashTable + (entries ot).length ≤ t.fThreshold →
      ∃ t', rehashFrom keyAt ot t = some t' ∧ Ok t' keyAt member ∧
        used t'.fHashTable ≤ t'.fThreshold := by
  induction ot with
  | nil =>
    intro t placed ok all _ _ _ _ room
    refine ⟨t, rfl, ⟨ok.holds.congr _ (fun slot => ?_) (fun _ _ => rfl),
      ok.threshold, ok.capacity, ok.room⟩, ?_⟩
    · rw [all slot]
      simp [entries]
    · simpa [entries] using room
  | cons bucket ot ih =>
    intro t placed ok all keyed distinct fresh undeleted room
    cases bucket with
    | free =>
      exact ih ok all keyed distinct fresh undeleted room
    | deleted =>
      exact ih ok all keyed distinct fresh undeleted room
    | entry slot =>
      have split : entries (.entry slot :: ot) = slot :: entries ot := rfl
      rw [split] at all distinct fresh room
      rw [length_cons] at room
      have isMember : member slot := (all slot).mpr (Or.inr mem_cons_self)
      have absent : ∀ other, placed other → keyAt other ≠ keyAt slot := by
        intro other isPlaced same
        have equal := keyed.injective other slot ((all other).mpr (Or.inl isPlaced)) isMember same
        exact fresh slot mem_cons_self (equal ▸ isPlaced)
      obtain ⟨next, placing, nextOk, sameThreshold, grown, clean⟩ :=
        ok.place_new (keyed.nulFree slot isMember) (fresh slot mem_cons_self) absent false
          (Or.inr undeleted) (by omega) rfl (fun _ _ => rfl)
      obtain ⟨t', rehashed, result⟩ := ih nextOk (fun other => by
          rw [all other, mem_cons,
            or_assoc]) keyed (nodup_cons.mp distinct).2 (fun other isLater => by
          rintro (isPlaced | rfl)
          · exact fresh other (mem_cons_of_mem _ isLater) isPlaced
          · exact (nodup_cons.mp distinct).1 isLater)
        (clean undeleted) (by omega)
      refine ⟨t', ?_, result⟩
      rw [AnyKeyTable.rehashFrom, placing]
      exact rehashed

section

variable (ok : Ok t keyAt member)
include ok

theorem Ok.rehash (keyed : Keyed keyAt member) :
    ∃ t', rehash keyAt t (t.fCapacity * 2) = some t' ∧
      Ok t' keyAt member ∧ used t'.fHashTable ≤ t'.fThreshold := by
  obtain ⟨freshOk, enough⟩ := initTable_ok keyAt (t.fCapacity * 2)
  have room := ok.room
  have capacity := ok.capacity
  have threshold := freshOk.threshold
  rw [ok.threshold] at room
  unfold cInitCapacity at capacity
  have fresh : (initTable (t.fCapacity * 2)).fHashTable =
      List.replicate (initTable (t.fCapacity * 2)).fCapacity .free := by
    unfold initTable fCapacity
    rw [length_replicate]
  refine Ok.rehashFrom t.fHashTable freshOk (fun slot => ?_) keyed
    (nodup_entries ok.holds.once) (fun _ _ never => never) ?_ ?_
  · rw [ok.holds.mem_entries_iff, false_or]
  · rw [fresh]
    intro again
    cases (mem_replicate.mp again).2
  · rw [fresh, used_replicate, ← used_eq_length_entries]
    omega

theorem Ok.append (keyed : Keyed keyAt member) (size atIndex : Nat)
    (nulFree : NulFree key) (below : ∀ slot, member slot → slot < size) (new : ¬ member atIndex)
    (absent : ∀ other, member other → keyAt other ≠ key) (keyAt' : Nat → Bytes)
    (here : keyAt' atIndex = key) (there : ∀ other, member other → keyAt' other = keyAt other) :
    ∃ t', append keyAt size t (some key) atIndex = some t' ∧
      Ok t' keyAt' (fun other => member other ∨ other = atIndex) := by
  have grown : ∃ t', (if t.fThreshold < size then
      AnyKeyTable.rehash keyAt t (t.fCapacity * 2) else some t) = some t' ∧
        Ok t' keyAt member ∧ used t'.fHashTable ≤ t'.fThreshold := by
    by_cases outgrown : t.fThreshold < size
    · rw [if_pos outgrown]
      exact ok.rehash keyed
    · rw [if_neg outgrown]
      have few := ok.holds.used_le below
      exact ⟨t, rfl, ok, by omega⟩
  obtain ⟨grownTable, growing, grownOk, room⟩ := grown
  obtain ⟨t', placing, result, -⟩ := grownOk.place_new nulFree new absent
    true (Or.inl rfl) room here there
  refine ⟨t', ?_, result⟩
  rw [AnyKeyTable.append, growing]
  exact placing

theorem Ok.rename (name : Nat → Option Nat) (keyAt' : Nat → Bytes)
    (same : ∀ a b, member a → name a = some b → keyAt' b = keyAt a)
    (injective : ∀ a a' b, name a = some b → name a' = some b → a = a') :
    Ok { t with fHashTable := t.fHashTable.map (renameBucket name) } keyAt'
      (fun b => ∃ a, member a ∧ name a = some b) where
  holds := by
    unfold fCapacity
    rw [length_map]
    exact ok.holds.rename name _ (fun a b isMember named => by rw [same a b isMember named]; rfl)
      injective
  threshold := by
    unfold fCapacity
    rw [length_map]
    exact ok.threshold
  capacity := by
    unfold fCapacity
    rw [length_map]
    exact ok.capacity
  room := le_trans (used_rename_le _ _) ok.room

end

variable {member' : Nat → Prop}

variable (ok : Ok t keyAt member)
include ok

theorem Ok.congr (sameMember : ∀ slot, member slot ↔ member' slot)
    (sameKey : ∀ slot, member slot → keyAt' slot = keyAt slot) :
    Ok t keyAt' member' where
  holds := ok.holds.congr _ sameMember (fun slot isMember => by rw [sameKey slot isMember])
  threshold := ok.threshold
  capacity := ok.capacity
  room := ok.room

theorem Ok.updateRemoved (fromIndex : Nat)
    (before : ∀ slot, slot < fromIndex → (member' slot ↔ member slot) ∧ keyAt' slot = keyAt slot)
    (after : ∀ slot, fromIndex ≤ slot →
      (member' slot ↔ member (slot + 1)) ∧ keyAt' slot = keyAt (slot + 1)) :
    Ok (t.updateRemoved fromIndex) keyAt' member' := by
  refine (ok.rename _ keyAt' ?_ ?_).congr (fun slot => ?_) (fun _ _ => rfl)
  · intro a b isMember named
    by_cases less : a < fromIndex
    · rw [if_neg (by omega), if_neg (by omega)] at named
      cases named
      exact (before a less).2
    · by_cases equal : a = fromIndex
      · rw [if_pos equal] at named
        cases named
      · rw [if_neg equal, if_pos (by omega)] at named
        cases named
        rw [(after (a - 1) (by omega)).2, show a - 1 + 1 = a from by omega]
  · intro a a' b named named'
    grind
  · constructor
    · rintro ⟨a, isMember, named⟩
      by_cases less : a < fromIndex
      · rw [if_neg (by omega), if_neg (by omega)] at named
        cases named
        exact (before _ less).1.mpr isMember
      · by_cases equal : a = fromIndex
        · rw [if_pos equal] at named
          cases named
        · rw [if_neg equal, if_pos (by omega)] at named
          cases named
          refine (after (a - 1) (by omega)).1.mpr ?_
          rwa [show a - 1 + 1 = a from by omega]
    · intro isMember
      by_cases less : slot < fromIndex
      · refine ⟨slot, (before slot less).1.mp isMember, ?_⟩
        rw [if_neg (by omega), if_neg (by omega)]
      · refine ⟨slot + 1, (after slot (by omega)).1.mp isMember, ?_⟩
        rw [if_neg (by omega), if_pos (by omega)]
        rfl

theorem Ok.updateInserted (fromIndex size : Nat)
    (before : ∀ slot, slot < fromIndex → (member' slot ↔ member slot) ∧ keyAt' slot = keyAt slot)
    (gap : ∀ slot, fromIndex ≤ slot → slot < fromIndex + size → ¬ member' slot)
    (after : ∀ slot, fromIndex ≤ slot →
      (member' (slot + size) ↔ member slot) ∧ keyAt' (slot + size) = keyAt slot) :
    Ok (t.updateInserted fromIndex size) keyAt' member' := by
  refine (ok.rename _ keyAt' ?_ ?_).congr (fun slot => ?_) (fun _ _ => rfl)
  · intro a b isMember named
    by_cases less : a < fromIndex
    · rw [if_neg (by omega)] at named
      cases named
      exact (before a less).2
    · rw [if_pos (by omega)] at named
      cases named
      exact (after a (by omega)).2
  · intro a a' b named named'
    grind
  · constructor
    · rintro ⟨a, isMember, named⟩
      by_cases less : a < fromIndex
      · rw [if_neg (by omega)] at named
        cases named
        exact (before _ less).1.mpr isMember
      · rw [if_pos (by omega)] at named
        cases named
        exact (after a (by omega)).1.mpr isMember
    · intro isMember
      by_cases less : slot < fromIndex
      · refine ⟨slot, (before slot less).1.mp isMember, ?_⟩
        rw [if_neg (by omega)]
      · by_cases inGap : slot < fromIndex + size
        · exact absurd isMember (gap slot (by omega) inGap)
        · refine ⟨slot - size, ?_, ?_⟩
          · refine (after (slot - size) (by omega)).1.mp ?_
            rwa [show slot - size + size = slot from by omega]
          · rw [if_pos (by omega), show slot - size + size = slot from by omega]

end AnyKeyTable

end Coast
