import Coast.Base.AnyRegion

/-!
# Merging an Anything into another one

`AnyMerge` changes the master where it is.  Unnamed arrays are merged into
the unnamed array of the master that has most in common with them.
-/

namespace Coast

namespace AnyUtils

def setMatch (anyMatches : List Int) (lMasterIdx : Nat) (lMatch : Int) : List Int :=
  (anyMatches ++ List.replicate (lMasterIdx + 1 - anyMatches.length) (-1)).set lMasterIdx lMatch

/-- The element that agrees most so far. -/
structure Winner where
  lMaxIdx : Int
  lMaxVal : Int
  lSameCount : Int

def Winner.see (best : Winner) (entry : Int × Nat) : Winner :=
  if best.lMaxVal < entry.1 then ⟨entry.2, entry.1, 1⟩
  else if entry.1 = best.lMaxVal then
    ⟨entry.2, best.lMaxVal, best.lSameCount + 1⟩
  else best

/-- The highest count, of equal ones the one with the same index or the
lowest index. -/
def winner (anyMatches : List Int) (i : Nat) : Int :=
  let best := anyMatches.zipIdx.reverse.foldl Winner.see ⟨-1, -1, 1⟩
  if 1 < best.lSameCount ∧ anyMatches.getD i (-1) = best.lMaxVal then i
  else best.lMaxIdx

def masterIndexes (heap : Heap) (anyMaster : Handle) : List Nat :=
  ((heap.slots anyMaster).zipIdx.filter fun slot =>
    slot.1.1 = [] && heap.isArray slot.1.2).map Prod.snd

/-! ## The four kinds of slots -/

section Merge

variable (others : Nat → Nat)

def cloneOf (fuel : Nat) (heap : Heap) (any : Handle) : Option (Handle × Heap) :=
  (deepClone (fun place => others place + heap.slotCount place) fuel any
    ⟨heap, []⟩).map fun result => (result.1, result.2.heap)

def setClone (fuel : Nat) (heap : Heap) (anyMaster : AnyRef)
    (name : Bytes) (input : Handle) : Option Heap :=
  (cloneOf others fuel heap input).map fun result =>
    let (heap, ref) := result.2.refAtKey anyMaster name
    heap.put ref result.1

def appendClone (fuel : Nat) (heap : Heap) (anyMaster : AnyRef) (input : Handle) : Option Heap :=
  (cloneOf others fuel heap input).map fun result =>
    result.2.refAppend anyMaster result.1

/-- A call of `DoAnyMerge`, which tells how much was there already. -/
abbrev Merge := Heap → AnyRef → Handle → Bool → Option (Heap × Nat)

variable (bOverwriteSlots : Bool)

def mergeNamedLeaf (fuel : Nat) (heap : Heap) (anyMaster : AnyRef)
    (name : Bytes) (input : Handle) (bTest : Bool) :
    Option (Heap × Nat) :=
  if (heap.findIndex (heap.get anyMaster) name 0 0 = none ∨
      bOverwriteSlots = true) ∧ bTest = false then
    (setClone others fuel heap anyMaster name input).map (·, 0)
  else some (heap, 0)

def mergeUnnamedLeaf (fuel : Nat) (heap : Heap) (anyMaster : AnyRef)
    (input : Handle) (bTest : Bool) : Option (Heap × Nat) :=
  if heap.contains (heap.get anyMaster) (heap.asString input) then
    some (heap, 1)
  else if bTest then some (heap, 0)
  else (appendClone others fuel heap anyMaster input).map (·, 0)

def testMatches (merge : Merge) (anyMaster : AnyRef) (input : Handle) :
    List Nat → Heap × List Int → Option (Heap × List Int)
  | [], st => some st
  | lMasterIdx :: anyMWork, st =>
    let (heap, ref) := st.1.refAt anyMaster lMasterIdx
    (merge heap ref input true).bind fun result =>
      testMatches merge anyMaster input anyMWork (result.1, setMatch st.2 lMasterIdx result.2)

/-- An array without a name goes to the element that it agrees with most. -/
def mergeUnnamedArray (merge : Merge) (fuel : Nat) (heap : Heap) (anyMaster : AnyRef)
    (anyMasterIdx : List Nat) (i : Nat) (input : Handle) (bTest : Bool) : Option (Heap × Nat) :=
  if anyMasterIdx = [] then
    if bTest then some (heap, 0)
    else (appendClone others fuel heap anyMaster input).map (·, 0)
  else
    (testMatches merge anyMaster input anyMasterIdx (heap, [])).bind
      fun tested =>
        if bTest then some (tested.1, 0)
        else
          let (heap, ref) := tested.1.refAt anyMaster (winner tested.2 i)
          (merge heap ref input false).map fun result => (result.1, 0)

/-- An array with a name goes to the slot of this name. -/
def mergeNamedArray (merge : Merge) (fuel : Nat) (heap : Heap)
    (anyMaster : AnyRef) (name : Bytes) (input : Handle) (bTest : Bool) :
    Option (Heap × Nat) :=
  if heap.findIndex (heap.get anyMaster) name 0 0 ≠ none then
    let (heap, ref) := heap.refAtKey anyMaster name
    merge heap ref input bTest
  else if bTest then some (heap, 0)
  else (setClone others fuel heap anyMaster name input).map (·, 0)

/-- One slot of what is merged, with the agreements counted. -/
def mergeSlot (merge : Merge) (fuel : Nat) (anyMaster : AnyRef) (roaToMerge : Handle)
    (anyMasterIdx : List Nat) (bTest : Bool) (st : Heap × Nat) (i : Nat) : Option (Heap × Nat) :=
  let input := ROAnythingLookup.at_ st.1 roaToMerge i
  let name := cstr (Slots.keyOf (st.1.slots roaToMerge) i)
  (if st.1.isArray input = false then
    if name ≠ [] then
      mergeNamedLeaf others bOverwriteSlots fuel st.1 anyMaster name input bTest
    else mergeUnnamedLeaf others fuel st.1 anyMaster input bTest
  else if name = [] then
    mergeUnnamedArray others merge fuel st.1 anyMaster anyMasterIdx i input bTest
  else mergeNamedArray others merge fuel st.1 anyMaster name input
    bTest).map fun result => (result.1, st.2 + result.2)

/-- A value takes the place of another one, where it may. -/
def mergeValue (fuel : Nat) (heap : Heap) (anyMaster : AnyRef)
    (roaToMerge : Handle) (bTest : Bool) : Option (Heap × Nat) :=
  let master := heap.get anyMaster
  if (master = none ∧ roaToMerge = none) ∨ heap.asString master = heap.asString roaToMerge then
    some (heap, 1)
  else if bTest = false ∧ bOverwriteSlots = true then
    (cloneOf others fuel heap roaToMerge).map fun result =>
      (result.2.put anyMaster result.1, 0)
  else some (heap, 0)

/-- Arrays are merged slot by slot, other values as they are. -/
def doAnyMerge : Nat → Merge
  | 0 => fun _ _ _ _ => none
  | fuel + 1 => fun heap anyMaster roaToMerge bTest =>
    if heap.isArray roaToMerge then
      (List.range (heap.getSize roaToMerge)).foldlM
        (mergeSlot others bOverwriteSlots (doAnyMerge fuel) fuel anyMaster
          roaToMerge (masterIndexes heap (heap.get anyMaster)) bTest)
        (heap, 0)
    else
      mergeValue others bOverwriteSlots fuel heap anyMaster roaToMerge bTest

end Merge

def anyMerge (others : Nat → Nat) (fuel : Nat) (heap : Heap)
    (anyMaster : AnyRef) (roaToMerge : Handle) (bOverwriteSlots : Bool) :
    Option Heap :=
  (doAnyMerge others bOverwriteSlots fuel heap anyMaster roaToMerge false).map Prod.fst

end AnyUtils

/-!
## What a merge writes to

A merge writes to what is reached from the master and to new
implementations.  The master itself stays the same implementation when an
array is merged into an array.
-/

open List Option

/-! ## Clones are new -/

/-- The clones made so far are behind the old heap, and so is all that they
hold. -/
structure FreshClones (old : Heap) (st : CloneState) : Prop where
  grows : old.length ≤ st.heap.length
  same : ∀ place < old.length, st.heap[place]? = old[place]?
  closed : Heap.Closed (old.length ≤ ·) st.heap
  table : ∀ slot ∈ st.xreftable, old.length ≤ slot.2 ∧ slot.2 < st.heap.length

structure Clones (old : Heap) (st st' : CloneState) : Prop where
  fresh : FreshClones old st'
  grows : st.heap.length ≤ st'.heap.length

/-- A clone of new implementations only. -/
abbrev NewClone (old : Heap) (st' : CloneState) (clone : Handle) : Prop :=
  Heap.Inside (old.length ≤ ·) st'.heap clone

variable {old : Heap} {st st' : CloneState}

theorem FreshClones.assign (fresh : FreshClones old st) {pImpl : Nat}
    (new : old.length ≤ pImpl) {value : Handle} (inside : NewClone old st value) (key : Bytes) :
    FreshClones old (st.assign pImpl key value) := by
  have written : (st.assign pImpl key value).heap =
      st.heap.update pImpl (Slots.atKey (slotNameOf key) fun _ => value) := by
    rw [CloneState.assign, Heap.update]
    rfl
  refine ⟨?_, ?_, ?_, ?_⟩
  · rw [written, Heap.length_update]
    exact fresh.grows
  · intro place known
    rw [written, Heap.update_elsewhere _ _ (by omega)]
    exact fresh.same place known
  · intro place impl here found any member
    suffices within : Heap.Inside (old.length ≤ ·) st.heap any from
      within.grow (by rw [written, Heap.length_update])
    rw [written] at found
    by_cases same : place = pImpl
    · rw [same, Heap.update_at] at found
      rcases map_eq_some_iff.mp found with ⟨before, known, rfl⟩
      cases before with
      | array slots =>
        rcases mem_map.mp member with ⟨slot, among, rfl⟩
        rcases Slots.mem_atKey slot among with added | ⟨kept, there, same⟩
        · rw [added]
          exact inside
        · rcases same with same | same
          · rw [same]
            exact fresh.closed pImpl _ new known kept.2 (mem_map_of_mem there)
          · rw [same]
            exact inside
      | _ => cases member
    · rw [Heap.update_elsewhere _ _ same] at found
      exact fresh.closed place impl here found any member
  · intro slot member
    rw [written, Heap.length_update]
    exact fresh.table slot member

theorem FreshClones.alloc (fresh : FreshClones old st) (impl : AnyImpl)
    {table : Slots Nat} (entered : ∀ slot ∈ table,
      slot ∈ st.xreftable ∨ slot.2 = st.heap.length ∨ ∃ known ∈ st.xreftable, known.2 = slot.2) :
    FreshClones old ⟨st.heap ++ [impl.clone], table⟩ := by
  have grows : st.heap.length < (st.heap ++ [impl.clone]).length := by simp
  refine ⟨le_trans fresh.grows grows.le, ?_, ?_, ?_⟩
  · intro place known
    rw [getElem?_append_left (lt_of_lt_of_le known fresh.grows)]
    exact fresh.same place known
  · intro place found here at_ any member
    by_cases known : place < st.heap.length
    · rw [getElem?_append_left known] at at_
      exact (fresh.closed place found here at_ any member).grow grows.le
    · rw [getElem?_append_right (not_lt.mp known)] at at_
      have clone := mem_singleton.mp (mem_of_getElem? at_)
      rw [clone] at member
      cases impl <;> cases member
  · intro slot member
    rcases entered slot member with known | new | ⟨known, among, same⟩
    · have bounds := fresh.table slot known
      exact ⟨bounds.1, lt_trans bounds.2 grows⟩
    · rw [new]
      exact ⟨fresh.grows, grows⟩
    · have bounds := fresh.table known among
      rw [same] at bounds
      exact ⟨bounds.1, lt_trans bounds.2 grows⟩

def ClonesNew (old : Heap) (deepClone : Handle → CloneState → Option (Handle × CloneState)) :
    Prop :=
  ∀ any st clone st', FreshClones old st → deepClone any st = some (clone, st') →
      Clones old st st' ∧ NewClone old st' clone ∧ (any ≠ none → clone ≠ none)

theorem cloneSlots_new {deepClone : Handle → CloneState → Option (Handle × CloneState)}
    (new : ClonesNew old deepClone) {pImpl : Nat}
    (here : old.length ≤ pImpl) (slots : Slots Handle) :
    ∀ {st st' : CloneState}, FreshClones old st →
      cloneSlots deepClone pImpl slots st = some st' → Clones old st st' := by
  induction slots with
  | nil =>
    intro st st' fresh done
    cases done
    exact ⟨fresh, le_rfl⟩
  | cons slot slots ih =>
    intro st st' fresh done
    obtain ⟨key, value⟩ := slot
    rw [cloneSlots] at done
    rcases bind_eq_some_iff.mp done with ⟨⟨clone, middle⟩, cloned, rest⟩
    rcases new value st clone middle fresh cloned with ⟨clones, inside, -⟩
    have assigned := clones.fresh.assign here inside key
    have later := ih assigned rest
    refine ⟨later.fresh, le_trans clones.grows ?_⟩
    have kept : (middle.assign pImpl key clone).heap.length = middle.heap.length := by
      rw [CloneState.assign, length_modify]
    rw [← kept]
    exact later.grows

theorem doDeepClone_new {deepClone : Handle → CloneState → Option (Handle × CloneState)}
    (new : ClonesNew old deepClone) {impl : AnyImpl} {pObj : Nat} {clone : Handle}
    (fresh : FreshClones old st) (here : old.length ≤ pObj) (inHeap : pObj < st.heap.length)
    (done : doDeepClone deepClone impl pObj st = some (clone, st')) :
    Clones old st st' ∧ NewClone old st' clone ∧ clone ≠ none := by
  have inside : ∀ {later : CloneState},
      st.heap.length ≤ later.heap.length → NewClone old later (some pObj) := by
    intro later grows place same
    cases same
    exact ⟨here, lt_of_lt_of_le inHeap grows⟩
  cases impl with
  | array slots =>
    rw [doDeepClone] at done
    rcases map_eq_some_iff.mp done with ⟨later, cloned, same⟩
    cases same
    have clones := cloneSlots_new new here slots fresh cloned
    exact ⟨clones, inside clones.grows, by simp⟩
  | _ =>
    cases done
    exact ⟨⟨fresh, le_rfl⟩, inside le_rfl, by simp⟩

theorem deepClone_new (refCount : Nat → Nat) (fuel : Nat) :
    ClonesNew old (deepClone refCount fuel) := by
  induction fuel with
  | zero =>
    intro any st clone st' fresh done
    cases any with
    | none =>
      cases done
      exact ⟨⟨fresh, le_rfl⟩, Heap.inside_none, id⟩
    | some place => cases done
  | succ fuel ih =>
    intro any st clone st' fresh done
    cases any with
    | none =>
      cases done
      exact ⟨⟨fresh, le_rfl⟩, Heap.inside_none, id⟩
    | some place =>
      rw [deepClone] at done
      rcases bind_eq_some_iff.mp done with ⟨impl, -, done⟩
      have grown : ∀ table : Slots Nat, st.heap.length <
          (CloneState.mk (st.heap ++ [impl.clone]) table).heap.length := by
        simp
      simp only at done
      split at done
      · split at done
        · rename_i pObj known
          cases done
          refine ⟨⟨fresh, le_rfl⟩, ?_, fun _ => nofun⟩
          intro other same
          cases same
          rcases bind_eq_some_iff.mp known with ⟨i, -, here⟩
          rcases map_eq_some_iff.mp here with ⟨slot, at_, rfl⟩
          exact fresh.table slot (mem_of_getElem? at_)
        · have allocated : FreshClones old
              ⟨st.heap ++ [impl.clone], st.xreftable.setKey
                (thisToHex place) st.heap.length⟩ :=
            fresh.alloc impl fun slot member => Or.inr (Slots.mem_setKey slot member)
          rcases doDeepClone_new ih allocated fresh.grows
            (grown _) done with ⟨clones, inside, notNull⟩
          exact ⟨⟨clones.fresh, le_trans (grown _).le clones.grows⟩, inside, fun _ => notNull⟩
      · have allocated := fresh.alloc impl (fun slot => Or.inl)
        rcases doDeepClone_new ih allocated fresh.grows
          (grown _) done with ⟨clones, inside, notNull⟩
        exact ⟨⟨clones.fresh, le_trans (grown _).le clones.grows⟩, inside, fun _ => notNull⟩

namespace AnyUtils

open Heap

variable {In : Nat → Prop} {top : AnyRef} {Top : Handle → Prop}
  {before heap heap' : Heap} {others : Nat → Nat} {fuel : Nat}
  {anyMaster : AnyRef} {input : Handle} {bOverwriteSlots bTest : Bool}
  {hits : Nat}

theorem cloneOf_new {any clone : Handle}
    (done : cloneOf others fuel heap any = some (clone, heap')) :
    ∃ more, heap' = heap ++ more ∧
      (∀ impl ∈ more, ∀ any ∈ impl.handles, Inside (heap.length ≤ ·) heap' any) ∧
        Inside (heap.length ≤ ·) heap' clone ∧ (any ≠ none → clone ≠ none) := by
  rcases map_eq_some_iff.mp done with ⟨⟨copy, st⟩, cloned, same⟩
  cases same
  have start : FreshClones heap ⟨heap, []⟩ := by
    refine ⟨le_rfl, fun _ _ => rfl, ?_, ?_⟩
    · intro place impl here found
      have known := (List.getElem?_eq_some_iff.mp found).choose
      exact absurd known (not_lt.mpr here)
    · intro slot member
      cases member
  rcases deepClone_new _ fuel any _ copy st start cloned with ⟨⟨fresh, grows⟩, inside, notNull⟩
  refine ⟨st.heap.drop heap.length, ?_, ?_, inside, notNull⟩
  · have front : st.heap.take heap.length = heap := by
      apply ext_getElem?
      intro place
      rw [getElem?_take]
      split
      · rename_i known
        exact fresh.same place known
      · rename_i behind
        exact (getElem?_eq_none (not_lt.mp behind)).symm
    exact (front ▸ take_append_drop heap.length st.heap).symm
  · intro impl among any member
    rcases mem_iff_getElem?.mp among with ⟨i, found⟩
    rw [getElem?_drop] at found
    exact fresh.closed _ impl (Nat.le_add_right ..) found any member

section

variable (region : Region In top before)
include region

variable (confined : Confined In top Top before heap)
include confined

theorem cloneOf_confined {any clone : Handle}
    (done : cloneOf others fuel heap any = some (clone, heap')) :
    Confined In top Top before heap' ∧ Inside In heap' clone ∧ (any ≠ none → clone ≠ none) := by
  rcases cloneOf_new done with ⟨more, rfl, copies, inside, notNull⟩
  have new : ∀ {any}, Inside (heap.length ≤ ·) (heap ++ more) any → Inside In (heap ++ more) any :=
    fun inside place same =>
      ⟨region.fresh place (le_trans confined.grows (inside place same).1), (inside place same).2⟩
  exact ⟨confined.append region fun impl among any member => new (copies impl among any member),
    new inside, notNull⟩

theorem setClone_confined (writable : Writable In top Top before anyMaster) {name : Bytes}
    (done : setClone others fuel heap anyMaster name input = some heap') :
    Confined In top Top before heap' := by
  rcases map_eq_some_iff.mp done with ⟨⟨clone, cloned⟩, made, rfl⟩
  rcases cloneOf_confined region confined made with ⟨later, inside, -⟩
  have reached := later.refAtKey region writable name
  exact reached.confined.put_inside region
    (later.refAtKey_inside region writable name) (inside.grow reached.grows)

theorem appendClone_confined (writable : Writable In top Top before anyMaster)
    (done : appendClone others fuel heap anyMaster input = some heap') :
    Confined In top Top before heap' := by
  rcases map_eq_some_iff.mp done with ⟨⟨clone, cloned⟩, made, rfl⟩
  rcases cloneOf_confined region confined made with ⟨later, inside, -⟩
  have reached := later.refAt region writable (cloned.getSize (cloned.get anyMaster))
  exact reached.confined.put_inside region
    (later.refAt_size_inside region writable) (inside.grow reached.grows)

theorem mergeValue_confined (assignable : Assignable In top Top anyMaster) (notNull : input ≠ none)
    (done : mergeValue others bOverwriteSlots fuel heap anyMaster input
      bTest = some (heap', hits)) : Confined In top Top before heap' := by
  rw [mergeValue] at done
  split at done
  · cases done
    exact confined
  · split at done
    · rcases map_eq_some_iff.mp done with ⟨⟨clone, cloned⟩, made, same⟩
      cases same
      rcases cloneOf_confined region confined made with ⟨later, inside, copied⟩
      exact later.put region assignable (copied notNull) inside
    · cases done
      exact confined

end

/-! ## The winner was tested -/

theorem getD_setMatch (anyMatches : List Int) (lMasterIdx : Nat) (lMatch : Int) (j : Nat) :
    (setMatch anyMatches lMasterIdx lMatch).getD j (-1) =
      if j = lMasterIdx then lMatch else anyMatches.getD j (-1) := by
  rw [setMatch, getD_eq_getElem?_getD, getElem?_set, getD_eq_getElem?_getD]
  split
  · rename_i same
    rw [if_pos same.symm, if_pos (by simp; omega)]
    rfl
  · rename_i other
    rw [if_neg (Ne.symm other), getElem?_append, getElem?_replicate]
    split
    · rfl
    · rename_i behind
      rw [getElem?_eq_none (not_lt.mp behind)]
      split <;> rfl

theorem testMatches_tested {merge : Merge} (anyMWork : List Nat) :
    ∀ {st st' : Heap × List Int}, testMatches merge anyMaster input anyMWork st = some st' →
      (∀ j, 0 ≤ st'.2.getD j (-1) → j ∈ anyMWork ∨ 0 ≤ st.2.getD j (-1)) ∧
        ∀ j, j ∈ anyMWork ∨ 0 ≤ st.2.getD j (-1) → 0 ≤ st'.2.getD j (-1) := by
  induction anyMWork with
  | nil =>
    intro st st' done
    cases done
    exact ⟨fun j tested => .inr tested, fun j tested => tested.resolve_left not_mem_nil⟩
  | cons lMasterIdx anyMWork ih =>
    intro st st' done
    rw [testMatches] at done
    rcases bind_eq_some_iff.mp done with ⟨result, -, rest⟩
    have later := ih rest
    simp only [getD_setMatch] at later
    refine ⟨fun j tested => ?_, fun j tested => later.2 j ?_⟩
    · rcases later.1 j tested with among | known
      · exact .inl (mem_cons_of_mem _ among)
      · split at known
        · rename_i same
          exact .inl (same ▸ mem_cons_self)
        · exact .inr known
    · rcases tested with among | known
      · rcases mem_cons.mp among with rfl | among
        · exact .inr (by simp)
        · exact .inl among
      · right
        split
        · exact Int.natCast_nonneg _
        · exact known

theorem foldl_see (entries : List (Int × Nat)) :
    ∀ best : Winner, best.lMaxVal ≤ (entries.foldl Winner.see best).lMaxVal ∧
      (∀ entry ∈ entries, entry.1 ≤ (entries.foldl Winner.see best).lMaxVal) ∧
        ((entries.foldl Winner.see best).lMaxVal = best.lMaxVal ∧
            (entries.foldl Winner.see best).lMaxIdx = best.lMaxIdx ∨
          ∃ k : Nat, ((entries.foldl Winner.see best).lMaxVal, k) ∈ entries ∧
            (entries.foldl Winner.see best).lMaxIdx = k) := by
  induction entries with
  | nil => exact fun best => ⟨le_rfl, by simp, .inl ⟨rfl, rfl⟩⟩
  | cons entry entries ih =>
    intro best
    have one : best.lMaxVal ≤ (best.see entry).lMaxVal ∧ entry.1 ≤ (best.see entry).lMaxVal ∧
          ((best.see entry).lMaxVal = best.lMaxVal ∧ (best.see entry).lMaxIdx = best.lMaxIdx ∨
            (best.see entry).lMaxVal = entry.1 ∧ (best.see entry).lMaxIdx = entry.2) := by
      unfold Winner.see
      split
      · simp; omega
      · split <;> simp <;> omega
    have rest := ih (best.see entry)
    rw [foldl_cons]
    refine ⟨by omega, ?_, ?_⟩
    · rw [forall_mem_cons]
      exact ⟨by omega, rest.2.1⟩
    · rcases rest.2.2 with ⟨value, index⟩ | ⟨k, among, index⟩
      · rcases one.2.2 with old | new
        · exact .inl ⟨value.trans old.1, index.trans old.2⟩
        · refine .inr ⟨entry.2, ?_, index.trans new.2⟩
          rw [value, new.1]
          exact mem_cons_self
      · exact .inr ⟨k, mem_cons_of_mem _ among, index⟩

theorem winner_mem {merge : Merge} {anyMasterIdx : List Nat} (candidates : anyMasterIdx ≠ [])
    {tested : Heap × List Int}
    (done : testMatches merge anyMaster input anyMasterIdx (heap, []) = some tested) (i : Nat) :
    ∃ lMaxIdx ∈ anyMasterIdx, winner tested.2 i = lMaxIdx := by
  have matched := testMatches_tested anyMasterIdx done
  have only : ∀ j, 0 ≤ tested.2.getD j (-1) → j ∈ anyMasterIdx := fun j positive =>
    (matched.1 j positive).resolve_right (by simp)
  have entry : ∀ value j, (value, j) ∈ tested.2.zipIdx.reverse ↔ tested.2[j]? = some value := by
    simp [mem_zipIdx_iff_getElem?]
  have best := foldl_see tested.2.zipIdx.reverse ⟨-1, -1, 1⟩
  have positive : 0 ≤ (tested.2.zipIdx.reverse.foldl Winner.see ⟨-1, -1, 1⟩).lMaxVal := by
    obtain ⟨k, among⟩ := exists_mem_of_ne_nil anyMasterIdx candidates
    have hit := matched.2 k (.inl among)
    rw [getD_eq_getElem?_getD] at hit
    cases found : tested.2[k]? with
    | none =>
      rw [found] at hit
      exact absurd hit (by decide)
    | some value =>
      rw [found] at hit
      exact le_trans hit (best.2.1 _ ((entry value k).mpr found))
  rw [winner]
  split
  · rename_i same
    exact ⟨i, only i (same.2 ▸ positive), rfl⟩
  · rcases best.2.2 with none | ⟨k, among, index⟩
    · exact absurd (none.1 ▸ positive) (by decide)
    · refine ⟨k, only k ?_, index⟩
      rw [getD_eq_getElem?_getD, (entry _ k).mp among]
      exact positive

/-! ## The parts of a merge -/

/-- What holds of the parts of a merge: `R` leads from the heap before to the
heap behind, `W` is written through, `A` is assigned and `I` has an array. -/
structure MergeRules (others : Nat → Nat) (bOverwriteSlots : Bool) (R : Heap → Heap → Prop)
    (W : Heap → AnyRef → Prop) (A : AnyRef → Handle → Prop)
    (I : Heap → AnyRef → Nat → Prop) : Prop where
  refl : ∀ heap, R heap heap
  trans : ∀ {heap middle heap'}, R heap middle → R middle heap' → R heap heap'
  stable : ∀ {heap heap' ref}, W heap ref → R heap heap' →
    W heap' ref ∧ ∀ i, I heap ref i → I heap' ref i
  index : ∀ {heap ref}, W heap ref → ∀ i ∈ masterIndexes heap (heap.get ref), I heap ref i
  at_ : ∀ {heap ref} {i : Nat}, W heap ref → I heap ref i →
    R heap (heap.refAt ref i).1 ∧ W (heap.refAt ref i).1 (heap.refAt ref i).2 ∧
      ∀ any, any ≠ none → A (heap.refAt ref i).2 any
  atKey : ∀ {heap ref name}, W heap ref → heap.findIndex (heap.get ref) name 0 0 ≠ none →
    R heap (heap.refAtKey ref name).1 ∧ W (heap.refAtKey ref name).1 (heap.refAtKey ref name).2 ∧
      ∀ any, any ≠ none → A (heap.refAtKey ref name).2 any
  set : ∀ {fuel heap ref name input heap'}, W heap ref →
    heap.findIndex (heap.get ref) name 0 0 = none ∨ bOverwriteSlots = true →
      setClone others fuel heap ref name input = some heap' → R heap heap'
  append : ∀ {fuel heap ref input heap'}, W heap ref →
    appendClone others fuel heap ref input = some heap' → R heap heap'
  value : ∀ {fuel heap ref input bTest heap' hits}, W heap ref → A ref input →
    mergeValue others bOverwriteSlots fuel heap ref input bTest = some (heap', hits) → R heap heap'

section Rules

variable {R : Heap → Heap → Prop} {W : Heap → AnyRef → Prop} {A : AnyRef → Handle → Prop}
  {I : Heap → AnyRef → Nat → Prop} {merge : Merge}

def Follows (R : Heap → Heap → Prop) (W : Heap → AnyRef → Prop) (A : AnyRef → Handle → Prop)
    (merge : Merge) : Prop :=
  ∀ heap anyMaster roaToMerge bTest heap' hits, W heap anyMaster →
    A anyMaster roaToMerge ∨ heap.isArray roaToMerge = true →
      merge heap anyMaster roaToMerge bTest = some (heap', hits) → R heap heap'

variable (rules : MergeRules others bOverwriteSlots R W A I)
include rules

section

variable (calls : Follows R W A merge)
include calls

theorem testMatches_follows (notNull : input ≠ none) (anyMWork : List Nat) :
    ∀ {st st' : Heap × List Int}, W st.1 anyMaster → (∀ i ∈ anyMWork, I st.1 anyMaster i) →
      testMatches merge anyMaster input anyMWork st = some st' → R st.1 st'.1 := by
  induction anyMWork with
  | nil =>
    intro st st' writable arrays done
    cases done
    exact rules.refl st.1
  | cons lMasterIdx anyMWork ih =>
    intro st st' writable arrays done
    rw [testMatches] at done
    rcases bind_eq_some_iff.mp done with ⟨⟨later, lMatch⟩, merged, rest⟩
    rw [forall_mem_cons] at arrays
    have reached := rules.at_ writable arrays.1
    have called := rules.trans reached.1
      (calls _ _ _ _ _ _ reached.2.1 (.inl (reached.2.2 input notNull)) merged)
    have kept := rules.stable writable called
    exact rules.trans called (ih kept.1 (fun i among => kept.2 i (arrays.2 i among)) rest)

theorem mergeSlot_follows {roaToMerge : Handle} {anyMasterIdx : List Nat} {i : Nat}
    {st st' : Heap × Nat} (writable : W st.1 anyMaster)
    (arrays : ∀ i ∈ anyMasterIdx, I st.1 anyMaster i)
    (done : mergeSlot others bOverwriteSlots merge fuel anyMaster roaToMerge
      anyMasterIdx bTest st i = some st') :
    R st.1 st'.1 := by
  rw [mergeSlot] at done
  rcases map_eq_some_iff.mp done with ⟨⟨later, hits⟩, merged, rfl⟩
  split at merged
  · split at merged
    · -- a named leaf
      rw [mergeNamedLeaf] at merged
      split at merged
      · rename_i free
        rcases map_eq_some_iff.mp merged with ⟨heap, made, same⟩
        cases same
        exact rules.set writable free.1 made
      · cases merged
        exact rules.refl st.1
    · -- an unnamed leaf
      rw [mergeUnnamedLeaf] at merged
      split at merged
      · cases merged
        exact rules.refl st.1
      · split at merged
        · cases merged
          exact rules.refl st.1
        · rcases map_eq_some_iff.mp merged with ⟨heap, made, same⟩
          cases same
          exact rules.append writable made
  · rename_i array
    have notNull : ROAnythingLookup.at_ st.1 roaToMerge (i : Int) ≠ none := by
      intro null
      rw [null] at array
      exact array rfl
    split at merged
    · -- an unnamed array
      rw [mergeUnnamedArray] at merged
      split at merged
      · split at merged
        · cases merged
          exact rules.refl st.1
        · rcases map_eq_some_iff.mp merged with ⟨heap, made, same⟩
          cases same
          exact rules.append writable made
      · rename_i candidates
        rcases bind_eq_some_iff.mp merged with ⟨found, tested, merged⟩
        have searched := testMatches_follows rules calls notNull _ writable arrays tested
        simp only at merged
        split at merged
        · cases merged
          exact searched
        · rcases map_eq_some_iff.mp merged with ⟨⟨heap, more⟩, called, same⟩
          cases same
          rcases winner_mem candidates tested i with ⟨lMaxIdx, among, same⟩
          rw [same] at called
          have kept := rules.stable writable searched
          have reached := rules.at_ kept.1 (kept.2 lMaxIdx (arrays lMaxIdx among))
          exact rules.trans searched (rules.trans reached.1
            (calls _ _ _ _ _ _ reached.2.1 (.inl (reached.2.2 _ notNull)) called))
    · -- a named array
      rw [mergeNamedArray] at merged
      split at merged
      · rename_i defined
        have reached := rules.atKey writable defined
        exact rules.trans reached.1
          (calls _ _ _ _ _ _ reached.2.1 (.inl (reached.2.2 _ notNull)) merged)
      · rename_i undefined
        split at merged
        · cases merged
          exact rules.refl st.1
        · rcases map_eq_some_iff.mp merged with ⟨heap, made, same⟩
          cases same
          exact rules.set writable (.inl (not_not.mp undefined)) made

theorem mergeSlots_follows {roaToMerge : Handle} {anyMasterIdx : List Nat} (indexes : List Nat) :
    ∀ {st st' : Heap × Nat}, indexes.foldlM (mergeSlot others bOverwriteSlots merge fuel anyMaster
        roaToMerge anyMasterIdx bTest) st = some st' →
      W st.1 anyMaster → (∀ i ∈ anyMasterIdx, I st.1 anyMaster i) → R st.1 st'.1 := by
  induction indexes with
  | nil =>
    intro st st' done writable arrays
    cases done
    exact rules.refl st.1
  | cons i indexes ih =>
    intro st st' done writable arrays
    rw [foldlM_cons] at done
    rcases bind_eq_some_iff.mp done with ⟨middle, merged, rest⟩
    have first := mergeSlot_follows rules calls writable arrays merged
    have kept := rules.stable writable first
    exact rules.trans first (ih rest kept.1 fun i among => kept.2 i (arrays i among))

end

theorem doAnyMerge_follows (fuel : Nat) :
    Follows R W A (doAnyMerge others bOverwriteSlots fuel) := by
  induction fuel with
  | zero =>
    intro heap anyMaster roaToMerge bTest heap' hits _ _ done
    cases done
  | succ fuel ih =>
    intro heap anyMaster roaToMerge bTest heap' hits writable allowed done
    simp only [doAnyMerge] at done
    split at done
    · have followed := mergeSlots_follows rules ih _ done
      exact followed writable (rules.index writable)
    · rename_i leaf
      exact rules.value writable (allowed.resolve_right leaf) done

end Rules

theorem confined_rules (region : Region In top before) :
    MergeRules others bOverwriteSlots
      (fun heap heap' => Confined In top Top before heap → Confined In top Top before heap')
      (fun heap ref => Confined In top Top before heap ∧ Writable In top Top before ref)
      (fun ref any => Assignable In top Top ref ∧ any ≠ none) (fun _ _ _ => True) where
  refl _ confined := confined
  trans first second confined := second (first confined)
  stable writable kept := ⟨⟨kept writable.1, writable.2⟩, fun _ _ => trivial⟩
  index _ _ _ := trivial
  at_ writable _ :=
    have reached := writable.1.refAt region writable.2 _
    ⟨fun _ => reached.confined, ⟨reached.confined, .inl reached.assignable⟩,
      fun _ notNull => ⟨reached.assignable, notNull⟩⟩
  atKey writable _ :=
    have reached := writable.1.refAtKey region writable.2 _
    ⟨fun _ => reached.confined, ⟨reached.confined, .inl reached.assignable⟩,
      fun _ notNull => ⟨reached.assignable, notNull⟩⟩
  set writable _ done confined := setClone_confined region confined writable.2 done
  append writable done confined := appendClone_confined region confined writable.2 done
  value _ assigned done confined :=
    mergeValue_confined region confined assigned.1 assigned.2 done

def MergeConfined (In : Nat → Prop) (top : AnyRef) (Top : Handle → Prop)
    (before : Heap) (merge : Merge) : Prop :=
  ∀ heap anyMaster roaToMerge bTest heap' hits, Confined In top Top before heap →
      Writable In top Top before anyMaster → roaToMerge ≠ none → (Assignable In top Top anyMaster ∨
          heap.isArray roaToMerge = true) →
          merge heap anyMaster roaToMerge bTest = some (heap', hits) →
            Confined In top Top before heap'

/-- Merging stays inside of the region that it began in. -/
theorem doAnyMerge_confined (region : Region In top before) (fuel : Nat) :
    MergeConfined In top Top before (doAnyMerge others bOverwriteSlots fuel) := by
  intro heap anyMaster roaToMerge bTest heap' hits confined writable notNull allowed done
  exact doAnyMerge_follows (confined_rules region) fuel _ _ _ _ _ _ ⟨confined, writable⟩
    (allowed.imp_left fun assignable => ⟨assignable, notNull⟩) done confined

end AnyUtils

end Coast
