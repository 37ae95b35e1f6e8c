import Coast.Base.LookupPath
import Coast.Library.Fuel

/-!
# Iterating over the leaves of an Anything

An iterator goes over the slots of an Anything.  The iterator over the leaves
has a member for the slot that it is at, and an iterator of its own kind for
an array there; over `Anything` that one refers to the member, over
`ROAnything` it has a copy.
-/

namespace Coast

open Fuel List

inductive XThing where
  | anything
  | roAnything
  deriving DecidableEq, Repr

/-- `LeafIterator`; the position is in front of the first slot at first. -/
structure LeafIterator where
  fAny : Handle
  fPosition : Int
  fSize : Nat
  subIter : Option LeafIterator
  fanySubRef : Handle

/-- What `operator=` gives: the handle itself, or where the allocators differ
the handle of a copy. -/
structure AnyAssignment where
  assign : Heap → Handle → Heap × Handle
  grows : ∀ heap any, ∃ more, (assign heap any).1 = heap ++ more
  same : ∀ {heap tree any}, Heap.Unfolds heap tree any →
    (assign heap any).1.Unfolds tree (assign heap any).2

def AnyAssignment.shared : AnyAssignment where
  assign heap any := (heap, any)
  grows heap _ := ⟨[], (append_nil heap).symm⟩
  same seen := seen

namespace LeafIterator

variable (x : XThing) (assignment : AnyAssignment)

def operatorIndex (heap : Heap) (any : Handle) (i : Int) : Heap × Handle :=
  match x with
  | .anything => AnythingLookup.at_ heap any i
  | .roAnything => (heap, ROAnythingLookup.at_ heap any i)

def create (heap : Heap) (a : Handle) : LeafIterator := ⟨a, -1, heap.getSize a, none, none⟩

/-- The iterator over the slot, which sees what is there now if it refers to
the member. -/
def bound (sub : LeafIterator) (fanySubRef : Handle) : LeafIterator :=
  match x with
  | .anything => { sub with fAny := fanySubRef }
  | .roAnything => sub

/-- The next slot is taken, if there is one. -/
def nextSlot (heap : Heap) (it : LeafIterator) : Option (Heap × LeafIterator) :=
  if it.fPosition + 1 < it.fSize then
    let read := operatorIndex x heap it.fAny (it.fPosition + 1)
    let stored := assignment.assign read.1 read.2
    some (stored.1, { it with
      fPosition := it.fPosition + 1
      fanySubRef := stored.2 })
  else none

mutual

/-- The next leaf below the slot, or of a slot behind it. -/
def doGetNext : Nat → Heap → LeafIterator → Option (Option Handle × Heap × LeafIterator)
  | 0, _, _ => none
  | fuel + 1, heap, it =>
    match it.subIter with
    | none => search fuel heap it
    | some subIter =>
      (doGetNext fuel heap (bound x subIter it.fanySubRef)).bind
        fun result =>
          match result.1 with
          | some a =>
            some (some a, result.2.1, { it with subIter := some result.2.2 })
          | none => search fuel result.2.1 { it with subIter := none }

/-- Slots are passed by until one has a leaf. -/
def search : Nat → Heap → LeafIterator → Option (Option Handle × Heap × LeafIterator)
  | 0, _, _ => none
  | fuel + 1, heap, it =>
    match nextSlot x assignment heap it with
    | none => some (none, heap, it)
    | some (heap, it) =>
      match heap.impl it.fanySubRef with
      | some (.array slots) =>
        if 0 < slots.length then
          (doGetNext fuel heap (create heap it.fanySubRef)).bind
            fun result =>
              let it := { it with subIter := some result.2.2 }
              match result.1 with
              | some a => some (some a, result.2.1, it)
              | none => search fuel result.2.1 it
        else search fuel heap it
      | _ =>
        let stored := assignment.assign heap it.fanySubRef
        some (some stored.2, stored.1, it)

end

def calls (fuel : Nat) : Nat → Heap → LeafIterator →
    Option (List (Option Handle) × Heap × LeafIterator)
  | 0, heap, it => some ([], heap, it)
  | n + 1, heap, it =>
    (doGetNext x assignment fuel heap it).bind fun result =>
      (calls fuel n result.2.1 result.2.2).map fun rest =>
        (result.1 :: rest.1, rest.2)

end LeafIterator

namespace Anything

mutual

def leafSlots : List (Bytes × Anything) → List Anything
  | [] => []
  | (_, tree) :: slots => leavesAt tree ++ leafSlots slots

def leavesAt : Anything → List Anything
  | .array slots => leafSlots slots
  | leaf => [leaf]

end

theorem leavesAt_leaf {leaf : Anything}
    (notArray : ∀ slots, leaf ≠ .array slots) : leavesAt leaf = [leaf] := by
  cases leaf with
  | array slots => exact absurd rfl (notArray slots)
  | _ => simp only [leavesAt]

def leaves : Anything → List Anything
  | .null => []
  | tree => leavesAt tree

theorem leaves_array (slots : List (Bytes × Anything)) :
    leaves (.array slots) = leafSlots slots := by
  simp only [leaves, leavesAt]

theorem leaves_leaf {leaf : Anything} (notNull : leaf ≠ .null) :
    leaves leaf = leafSlots [([], leaf)] := by
  rw [leaves, leafSlots, leafSlots, append_nil]
  exact notNull

end Anything

namespace LeafIterator

variable {x : XThing} {assignment : AnyAssignment} {heap : Heap}

/-- The slot at an index; a simple value is its own only slot. -/
inductive SlotIs (heap : Heap) (any : Handle) : Nat → Handle → Prop
  | array {slots : Slots Handle} {k : Nat} {key : Bytes} {slot : Handle} :
      heap.impl any = some (.array slots) → slots[k]? = some (key, slot) →
      SlotIs heap any k slot
  | simple {impl : AnyImpl} : heap.impl any = some impl →
      (∀ slots, impl ≠ .array slots) → SlotIs heap any 0 any

variable {any : Handle} {k : Nat}

theorem SlotIs.append {slot : Handle} (slotIs : SlotIs heap any k slot) (more : Heap) :
    SlotIs (heap ++ more) any k slot := by
  cases slotIs with
  | array found here => exact .array (Heap.impl_append found more) here
  | simple found other => exact .simple (Heap.impl_append found more) other

theorem SlotIs.operatorIndex {slot : Handle} (slotIs : SlotIs heap any k slot) (x : XThing) :
    LeafIterator.operatorIndex x heap any k = (heap, slot) := by
  cases slotIs with
  | @array slots _ key _ found here =>
    have inside : k < slots.length := (List.getElem?_eq_some_iff.mp here).1
    have read : Heap.slot slots k = slot := by
      rw [Heap.slot, here]
      rfl
    cases x with
    | anything =>
      simp only [LeafIterator.operatorIndex, AnythingLookup.at_, found,
        Int.toNat_natCast, inside, if_true, read]
    | roAnything =>
      have within : ¬((k : Int) < 0 ∨ (heap.getSize any : Int) ≤ k) := by
        rw [Heap.getSize, found]
        dsimp only
        omega
      simp only [LeafIterator.operatorIndex, ROAnythingLookup.at_, within,
        if_false, found, Int.toNat_natCast, read]
  | @simple impl found other =>
    cases x with
    | anything =>
      rw [LeafIterator.operatorIndex, AnythingLookup.at_, found]
      cases impl with
      | array slots => exact absurd rfl (other slots)
      | _ => rfl
    | roAnything =>
      rw [LeafIterator.operatorIndex, ROAnythingLookup.at_, Heap.getSize, found]
      cases impl with
      | array slots => exact absurd rfl (other slots)
      | _ => rfl

/-- The trees at the slots from an index on. -/
inductive Ahead (heap : Heap) (any : Handle) (size : Nat) : Nat → List (Bytes × Anything) → Prop
  | done {k : Nat} : size ≤ k → Ahead heap any size k []
  | more {k : Nat} {key : Bytes} {tree : Anything} {slot : Handle}
      {rest : List (Bytes × Anything)} : k < size →
      SlotIs heap any k slot → heap.Unfolds tree slot →
      Ahead heap any size (k + 1) rest →
      Ahead heap any size k ((key, tree) :: rest)

variable {trees : List (Bytes × Anything)}

theorem Ahead.append {size : Nat} (ahead : Ahead heap any size k trees)
    (more : Heap) : Ahead (heap ++ more) any size k trees := by
  induction ahead with
  | done ended => exact .done ended
  | more inside slotIs seen _ ih =>
    exact .more inside (slotIs.append more) (seen.append more) ih

theorem ahead_of_drop {slots : Slots Handle} (found : heap.impl any = some (.array slots))
    (seen : heap.UnfoldsSlots trees (slots.drop k)) :
    Ahead heap any slots.length k trees := by
  induction trees generalizing k with
  | nil => exact .done (drop_eq_nil_iff.mp seen)
  | cons assoc trees ih =>
    rcases assoc with ⟨key, tree⟩
    rcases seen with ⟨slot, rest, parts, first, others⟩
    have here : slots[k]? = some (key, slot) := by
      rw [← head?_drop, parts]
      rfl
    have tail : slots.drop (k + 1) = rest := by
      rw [← tail_drop, parts]
      rfl
    rw [← tail] at others
    exact .more (List.getElem?_eq_some_iff.mp here).1 (.array found here) first (ih others)

theorem ahead_create {slots : List (Bytes × Anything)} (seen : heap.Unfolds (.array slots) any) :
    Ahead heap any (heap.getSize any) 0 slots := by
  rcases seen with ⟨handles, found, inside⟩
  have size : heap.getSize any = handles.length := by
    rw [Heap.getSize, found]
  rw [size]
  exact ahead_of_drop found inside

variable {leaf : Anything}

theorem impl_of_leaf (seen : heap.Unfolds leaf any) (notNull : leaf ≠ .null)
    (notArray : ∀ slots, leaf ≠ .array slots) :
    ∃ impl, heap.impl any = some impl ∧ ∀ slots, impl ≠ .array slots := by
  cases leaf with
  | null => exact absurd rfl notNull
  | long value => exact ⟨_, seen, nofun⟩
  | charPtr value => exact ⟨_, seen, nofun⟩
  | double text => exact ⟨_, seen, nofun⟩
  | voidBuf value => exact ⟨_, seen, nofun⟩
  | object address => exact ⟨_, seen, nofun⟩
  | array slots => exact absurd rfl (notArray slots)

theorem notArray_of_leaf (seen : heap.Unfolds leaf any) (notArray : ∀ slots, leaf ≠ .array slots)
    (slots : Slots Handle) : heap.impl any ≠ some (.array slots) := by
  by_cases isNull : leaf = .null
  · subst isNull
    have none' : any = none := seen
    subst none'
    exact nofun
  · rcases impl_of_leaf seen isNull notArray with ⟨impl, found, other⟩
    rw [found]
    exact fun same => other slots (Option.some.inj same)

inductive Exhausted : LeafIterator → Prop
  | mk {it : LeafIterator} : (it.fSize : Int) ≤ it.fPosition + 1 →
      (∀ sub, it.subIter = some sub → Exhausted sub) → Exhausted it

/-- The leaves that an iterator is going to return. -/
inductive Yields (x : XThing) (heap : Heap) : LeafIterator → List Anything → Prop
  | ahead {it : LeafIterator} {k : Nat} {trees : List (Bytes × Anything)} :
      it.fPosition + 1 = k → Ahead heap it.fAny it.fSize k trees →
      (∀ sub, it.subIter = some sub → Exhausted sub) →
      Yields x heap it (Anything.leafSlots trees)
  | within {it sub : LeafIterator} {k : Nat}
      {trees : List (Bytes × Anything)} {todo : List Anything} :
      it.fPosition + 1 = k → Ahead heap it.fAny it.fSize k trees →
      it.subIter = some sub → Yields x heap (bound x sub it.fanySubRef) todo →
      Yields x heap it (todo ++ Anything.leafSlots trees)

/-- A call gives the next of the leaves to do, or ends. -/
structure Gives (x : XThing) (heap : Heap) (it : LeafIterator) (todo : List Anything)
    (result : Option Handle × Heap × LeafIterator) : Prop where
  grows : ∃ more, result.2.1 = heap ++ more
  fAny_eq : result.2.2.fAny = it.fAny
  gives : match todo with
    | [] => result.1 = none ∧ Exhausted result.2.2
    | leaf :: todo => ∃ a, result.1 = some a ∧ result.2.1.Unfolds leaf a ∧
        Yields x result.2.1 result.2.2 todo

variable {it : LeafIterator}

theorem nextSlot_ended (ended : (it.fSize : Int) ≤ it.fPosition + 1) :
    nextSlot x assignment heap it = none := by
  rw [nextSlot, if_neg (by omega)]

theorem bound_eq (sub : LeafIterator) (fanySubRef : Handle) :
    ∃ any, bound x sub fanySubRef = { sub with fAny := any } := by
  cases sub with
  | mk fAny fPosition fSize subIter inner =>
    cases x with
    | anything => exact ⟨fanySubRef, rfl⟩
    | roAnything => exact ⟨fAny, rfl⟩

variable {sub : LeafIterator}

theorem bound_fAny {after : LeafIterator} {fanySubRef : Handle}
    (same : after.fAny = (bound x sub fanySubRef).fAny) :
    bound x after fanySubRef = after := by
  cases after with
  | mk fAny fPosition fSize subIter inner =>
    cases x with
    | anything =>
      have there : fAny = fanySubRef := same
      rw [there]
      rfl
    | roAnything => rfl

/-- What `doGetNext` does with the result of the sub-iterator. -/
def afterSub (x : XThing) (assignment : AnyAssignment) (it : LeafIterator)
    (fuel : Nat) (result : Option Handle × Heap × LeafIterator) :
    Option (Option Handle × Heap × LeafIterator) :=
  match result.1 with
  | some a => some (some a, result.2.1, { it with subIter := some result.2.2 })
  | none => search x assignment fuel result.2.1 { it with subIter := none }

def afterCreate (x : XThing) (assignment : AnyAssignment) (it : LeafIterator) (fuel : Nat)
    (result : Option Handle × Heap × LeafIterator) :
    Option (Option Handle × Heap × LeafIterator) :=
  match result.1 with
  | some a => some (some a, result.2.1, { it with subIter := some result.2.2 })
  | none =>
    search x assignment fuel result.2.1 { it with subIter := some result.2.2 }

variable {result : Option Handle × Heap × LeafIterator}

theorem doGetNext_none (level : it.subIter = none)
    (searches : Settles (fun fuel => search x assignment fuel heap it)
      result) :
    Settles (fun fuel => doGetNext x assignment fuel heap it) result := by
  refine searches.succ rfl fun fuel => ?_
  rw [doGetNext, level]

theorem doGetNext_some {first : Option Handle × Heap × LeafIterator} (level : it.subIter = some sub)
    (inner : Settles (fun fuel => doGetNext x assignment fuel heap
      (bound x sub it.fanySubRef)) first)
    (rest : Settles (fun fuel => afterSub x assignment it fuel first)
      result) :
    Settles (fun fuel => doGetNext x assignment fuel heap it) result := by
  refine (inner.bind rest).succ rfl fun fuel => ?_
  rw [doGetNext, level]
  rfl

theorem search_ended (ended : (it.fSize : Int) ≤ it.fPosition + 1) :
    Settles (fun fuel => search x assignment fuel heap it) (none, heap, it) := by
  refine (Settles.const (none, heap, it)).succ rfl fun fuel => ?_
  rw [search, nextSlot_ended ended]

theorem Exhausted.gives (exhausted : Exhausted it) :
    ∀ any, ∃ result, Settles (fun fuel =>
        doGetNext x assignment fuel heap { it with fAny := any }) result ∧
      Gives x heap { it with fAny := any } [] result := by
  induction exhausted with
  | @mk it ended subs ih =>
    intro any
    cases level : it.subIter with
    | none =>
      exact ⟨_, doGetNext_none rfl (search_ended ended),
        ⟨[], (append_nil heap).symm⟩, rfl, rfl, .mk ended nofun⟩
    | some sub =>
      rcases @bound_eq x sub it.fanySubRef with ⟨other, same⟩
      rcases ih sub level other with ⟨⟨found, grown, after⟩, inner, gives⟩
      rcases gives.gives with ⟨none', -⟩
      dsimp only at none'
      subst none'
      rw [← same] at inner
      have rest : Settles (fun fuel => afterSub x assignment
          { it with fAny := any, subIter := some sub } fuel
            (none, grown, after))
            (none, grown, { it with fAny := any, subIter := none }) :=
        search_ended ended
      exact ⟨_, doGetNext_some rfl inner rest, gives.grows, rfl, rfl, .mk ended nofun⟩

variable {key : Bytes} {rest : List (Bytes × Anything)}

theorem nextSlot_more {tree : Anything}
    (place : it.fPosition + 1 = k) (ahead : Ahead heap it.fAny it.fSize k ((key, tree) :: rest)) :
    ∃ grown slot, nextSlot x assignment heap it =
        some (grown, { it with fPosition := k, fanySubRef := slot }) ∧
      (∃ more, grown = heap ++ more) ∧ grown.Unfolds tree slot ∧
      Ahead grown it.fAny it.fSize (k + 1) rest := by
  cases ahead with
  | @more _ _ _ slot _ inside slotIs seen later =>
    have within : it.fPosition + 1 < it.fSize := by omega
    rcases assignment.grows heap slot with ⟨more, grown⟩
    have stored := assignment.same seen
    refine ⟨_, _, ?_, ⟨more, grown⟩, stored, ?_⟩
    · rw [nextSlot, if_pos within, place, slotIs.operatorIndex]
    · rw [grown]
      exact later.append more

theorem grows_trans {first second third : Heap} (one : ∃ more, second = first ++ more)
    (other : ∃ more, third = second ++ more) :
    ∃ more, third = first ++ more := by
  rcases one with ⟨more, rfl⟩
  rcases other with ⟨further, rfl⟩
  exact ⟨more ++ further, append_assoc first more further⟩

variable {it' : LeafIterator}

theorem search_leaf {grown : Heap} (next : nextSlot x assignment heap it = some (grown, it'))
    (notArray : ∀ slots, grown.impl it'.fanySubRef ≠ some (.array slots)) :
    Settles (fun fuel => search x assignment fuel heap it)
      (some (assignment.assign grown it'.fanySubRef).2,
        (assignment.assign grown it'.fanySubRef).1, it') := by
  refine (Settles.const (some (assignment.assign grown it'.fanySubRef).2,
    (assignment.assign grown it'.fanySubRef).1, it')).succ rfl fun fuel => ?_
  rw [search, next]
  dsimp only
  split
  · rename_i slots found
    exact absurd found (notArray slots)
  · rfl

theorem search_empty {grown : Heap} (next : nextSlot x assignment heap it = some (grown, it'))
    (empty : grown.impl it'.fanySubRef = some (.array []))
    (rest : Settles (fun fuel => search x assignment fuel grown it')
      result) :
    Settles (fun fuel => search x assignment fuel heap it) result := by
  refine rest.succ rfl fun fuel => ?_
  rw [search, next]
  dsimp only
  rw [empty]
  rfl

theorem search_array {grown : Heap} {slots : Slots Handle}
    {first : Option Handle × Heap × LeafIterator}
    (next : nextSlot x assignment heap it = some (grown, it'))
    (found : grown.impl it'.fanySubRef = some (.array slots)) (some' : 0 < slots.length)
    (inner : Settles (fun fuel => search x assignment fuel grown
      (create grown it'.fanySubRef)) first)
    (rest : Settles (fun fuel => afterCreate x assignment it' fuel first)
      result) :
    Settles (fun fuel => search x assignment fuel heap it) result := by
  refine ((doGetNext_none rfl inner).bind rest).succ rfl fun fuel => ?_
  rw [search, next]
  dsimp only
  rw [found]
  dsimp only
  rw [if_pos some']
  rfl

variable {todo : List Anything}

theorem Gives.grown {before : Heap} (gives : Gives x heap it' todo result)
    (grows : ∃ more, heap = before ++ more) (same : it'.fAny = it.fAny) :
    Gives x before it todo result :=
  ⟨grows_trans grows gives.grows, gives.fAny_eq.trans same, gives.gives⟩

theorem gives_of_found {grown after : Heap} {a : Handle} {sub created : LeafIterator}
    (place : it.fPosition + 1 = k) (ahead : Ahead grown it.fAny it.fSize k rest)
    (gives : Gives x grown created (leaf :: todo) (some a, after, sub))
    (same : bound x sub it.fanySubRef = sub) :
    Gives x grown it (leaf :: (todo ++ Anything.leafSlots rest))
      (some a, after, { it with subIter := some sub }) := by
  rcases gives.gives with ⟨_, found, seen, yields⟩
  cases found
  rcases gives.grows with ⟨more, grows⟩
  have later : Ahead after it.fAny it.fSize k rest := by
    rw [show after = grown ++ more from grows]
    exact ahead.append more
  refine ⟨⟨more, grows⟩, rfl, a, rfl, seen, ?_⟩
  refine @Yields.within x after { it with subIter := some sub } sub k rest todo place later rfl ?_
  rw [same]
  exact yields

def Finds (x : XThing) (assignment : AnyAssignment) (trees : List (Bytes × Anything)) : Prop :=
  ∀ (heap : Heap) (it : LeafIterator) (k : Nat),
    it.fPosition + 1 = k → Ahead heap it.fAny it.fSize k trees →
    (∀ sub, it.subIter = some sub → Exhausted sub) →
    ∃ result, Settles (fun fuel => search x assignment fuel heap it)
        result ∧
      Gives x heap it (Anything.leafSlots trees) result

theorem finds_nil : Finds x assignment [] := by
  intro heap it k place ahead subs
  cases ahead with
  | done ended =>
    have past : (it.fSize : Int) ≤ it.fPosition + 1 := by omega
    exact ⟨_, search_ended past, ⟨[], (append_nil heap).symm⟩, rfl, rfl, .mk past subs⟩

theorem finds_leaf (rest : List (Bytes × Anything)) (notArray : ∀ slots, leaf ≠ .array slots) :
    Finds x assignment ((key, leaf) :: rest) := by
  intro heap it k place ahead subs
  rcases @nextSlot_more x assignment _ _ _ _ _ _ place ahead with
    ⟨grown, slot, next, grows, seen, later⟩
  rw [Anything.leafSlots, Anything.leavesAt_leaf notArray, singleton_append]
  rcases assignment.grows grown slot with ⟨more, grows'⟩
  have later' : Ahead (assignment.assign grown slot).1 it.fAny it.fSize (k + 1) rest := by
    rw [grows']
    exact later.append more
  exact ⟨_, search_leaf next (notArray_of_leaf seen notArray),
    grows_trans grows ⟨more, grows'⟩, rfl, _, rfl, assignment.same seen,
    .ahead rfl later' subs⟩

theorem finds_empty (later : Finds x assignment rest) :
    Finds x assignment ((key, .array []) :: rest) := by
  intro heap it k place ahead subs
  rcases @nextSlot_more x assignment _ _ _ _ _ _ place ahead with
    ⟨grown, slot, next, grows, ⟨slots, found, handles⟩, later'⟩
  cases handles
  rcases later grown { it with fPosition := k, fanySubRef := slot } (k + 1)
    rfl later' subs with ⟨result, settles, gives⟩
  rw [Anything.leafSlots, Anything.leavesAt, Anything.leafSlots, nil_append]
  exact ⟨result, search_empty next found settles, gives.grown grows rfl⟩

theorem finds_array {inner : List (Bytes × Anything)}
    (some' : inner ≠ []) (within : Finds x assignment inner) (later : Finds x assignment rest) :
    Finds x assignment ((key, .array inner) :: rest) := by
  intro heap it k place ahead subs
  rcases @nextSlot_more x assignment _ _ _ _ _ _ place ahead with
    ⟨grown, slot, next, grows, seen, later'⟩
  rcases within grown (create grown slot) 0 rfl (ahead_create seen)
    nofun with ⟨⟨a, after, sub⟩, settles, gives⟩
  rcases seen with ⟨slots, found, handles⟩
  have positive : 0 < slots.length := by
    cases inner with
    | nil => exact absurd rfl some'
    | cons assoc inner =>
      rcases handles with ⟨first, others, parts, -⟩
      rw [parts]
      exact Nat.succ_pos others.length
  have same : bound x sub slot = sub := by
    refine @bound_fAny x (create grown slot) sub slot (gives.fAny_eq.trans ?_)
    cases x with
    | anything => rfl
    | roAnything => rfl
  rw [Anything.leafSlots, Anything.leavesAt]
  cases leaves : Anything.leafSlots inner with
  | nil =>
    rw [leaves] at gives
    rcases gives.gives with ⟨none', exhausted⟩
    rcases gives.grows with ⟨more, grows'⟩
    dsimp only at none' grows'
    subst none' grows'
    rcases later (grown ++ more) { it with
        fPosition := k, fanySubRef := slot, subIter := some sub } (k + 1)
      rfl (later'.append more)
      (fun other is => by cases is; exact exhausted) with
      ⟨result, settles', gives'⟩
    exact ⟨result, search_array next found positive settles settles',
      gives'.grown (grows_trans grows ⟨more, rfl⟩) rfl⟩
  | cons leaf todo =>
    rw [leaves] at gives
    rcases gives.gives with ⟨here, found', -⟩
    dsimp only at found'
    subst found'
    have gives' := @gives_of_found x (k + 1) leaf
      { it with fPosition := k, fanySubRef := slot } rest todo grown after here sub
      (create grown slot) rfl later' gives same
    exact ⟨_, search_array next found positive settles (Settles.const _), gives'.grown grows rfl⟩

theorem finds : (trees : List (Bytes × Anything)) → Finds x assignment trees
  | [] => finds_nil
  | (_, .array []) :: rest => finds_empty (finds rest)
  | (_, .array (first :: inner)) :: rest =>
    finds_array nofun (finds (first :: inner)) (finds rest)
  | (_, .null) :: rest => finds_leaf rest nofun
  | (_, .long _) :: rest => finds_leaf rest nofun
  | (_, .charPtr _) :: rest => finds_leaf rest nofun
  | (_, .double _) :: rest => finds_leaf rest nofun
  | (_, .voidBuf _) :: rest => finds_leaf rest nofun
  | (_, .object _) :: rest => finds_leaf rest nofun

/-! ## Calls one after the other -/

theorem Exhausted.yields (exhausted : Exhausted it) : Yields x heap it [] := by
  cases exhausted with
  | mk ended subs =>
    have place : it.fPosition + 1 = (it.fPosition + 1).toNat := by omega
    have past : it.fSize ≤ (it.fPosition + 1).toNat := by omega
    exact .ahead place (.done past) subs

theorem gives_later (place : it.fPosition + 1 = k) (ahead : Ahead heap it.fAny it.fSize k trees)
    (level : it.subIter = some sub)
    (inner : Settles (fun fuel => doGetNext x assignment fuel heap
      (bound x sub it.fanySubRef)) result)
    (gives : Gives x heap (bound x sub it.fanySubRef) [] result) :
    ∃ result, Settles (fun fuel => doGetNext x assignment fuel heap it)
        result ∧
      Gives x heap it (Anything.leafSlots trees) result := by
  rcases result with ⟨found, grown, after⟩
  rcases gives.gives with ⟨none', -⟩
  rcases gives.grows with ⟨more, grows⟩
  dsimp only at none' grows
  subst none' grows
  rcases @finds x assignment trees (heap ++ more)
    { it with subIter := none } k place (ahead.append more) nofun with
    ⟨result, settles, gives'⟩
  exact ⟨result, doGetNext_some level inner settles, gives'.grown ⟨more, rfl⟩ rfl⟩

theorem Yields.gives (yields : Yields x heap it todo) :
    ∃ result, Settles (fun fuel => doGetNext x assignment fuel heap it)
        result ∧
      Gives x heap it todo result := by
  induction yields with
  | @ahead it k trees place ahead subs =>
    cases level : it.subIter with
    | none =>
      rcases @finds x assignment trees heap it k place ahead subs with ⟨result, settles, gives⟩
      exact ⟨result, doGetNext_none level settles, gives⟩
    | some sub =>
      rcases @bound_eq x sub it.fanySubRef with ⟨other, same⟩
      rcases @Exhausted.gives x assignment heap _ (subs sub level) other with ⟨result, inner, gives⟩
      rw [← same] at inner gives
      exact gives_later place ahead level inner gives
  | @within it sub k trees todo place ahead level _ ih =>
    rcases ih with ⟨result, inner, gives⟩
    cases todo with
    | nil => exact gives_later place ahead level inner gives
    | cons leaf todo =>
      rcases result with ⟨found, grown, after⟩
      rcases gives.gives with ⟨here, found', -⟩
      rcases gives.grows with ⟨more, grows⟩
      dsimp only at found' grows
      subst found' grows
      have gives' : Gives x (heap ++ more) (bound x sub it.fanySubRef) (leaf :: todo)
          (some here, heap ++ more, after) :=
        ⟨⟨[], (append_nil _).symm⟩, gives.fAny_eq, gives.gives⟩
      have later := gives_of_found place (ahead.append more) gives' (bound_fAny gives.fAny_eq)
      exact ⟨_, doGetNext_some level inner (Settles.const _), later.grown ⟨more, rfl⟩ rfl⟩

theorem Yields.next (yields : Yields x heap it todo) :
    ∃ found more after, Settles (fun fuel => doGetNext x assignment fuel heap it)
        (found, heap ++ more, after) ∧
      Option.Rel (heap ++ more).Unfolds todo.head? found ∧
      Yields x (heap ++ more) after todo.tail := by
  rcases @Yields.gives x assignment heap it todo yields with
    ⟨⟨found, grown, after⟩, settles, ⟨more, grows⟩, -, gives⟩
  dsimp only at grows
  subst grows
  cases todo with
  | nil =>
    rcases gives with ⟨found', exhausted⟩
    dsimp only at found'
    subst found'
    exact ⟨none, more, after, settles, .none, exhausted.yields⟩
  | cons leaf todo =>
    rcases gives with ⟨here, found', seen, left⟩
    dsimp only at found'
    subst found'
    exact ⟨some here, more, after, settles, .some seen, left⟩

theorem rel_append {expected : Option Anything} {found : Option Handle}
    (rel : Option.Rel heap.Unfolds expected found) (more : Heap) :
    Option.Rel (heap ++ more).Unfolds expected found := by
  cases rel with
  | none => exact .none
  | some seen => exact .some (seen.append more)

/-- Call after call returns the leaves that are left, and then nothing: by
induction on the number of calls. -/
theorem Yields.calls (n : Nat) (yields : Yields x heap it todo) :
    ∃ results more after, Settles (fun fuel => calls x assignment fuel n heap it)
        (results, heap ++ more, after) ∧
      List.Forall₂ (Option.Rel (heap ++ more).Unfolds)
        ((List.range n).map fun i => todo[i]?) results := by
  induction n generalizing heap it todo with
  | zero =>
    refine ⟨[], [], it, ?_, .nil⟩
    rw [append_nil]
    exact Settles.const _
  | succ n ih =>
    rcases @Yields.next x assignment heap it todo yields with
      ⟨found, more, after, settles, first, left⟩
    rcases ih left with ⟨results, further, last, settles', others⟩
    rw [append_assoc] at settles' others
    refine ⟨found :: results, more ++ further, last, settles.bind (settles'.map _), ?_⟩
    rw [range_succ_eq_map, map_cons, map_map]
    refine .cons ?_ ?_
    · rw [← head?_eq_getElem?, ← append_assoc]
      exact rel_append first further
    · have tails : ((fun i => todo[i]?) ∘ Nat.succ) = fun i => todo.tail[i]? := by
        funext i
        exact (getElem?_tail).symm
      rw [tails]
      exact others

theorem getSize_leaf {impl : AnyImpl} (found : heap.impl any = some impl)
    (other : ∀ slots, impl ≠ .array slots) : heap.getSize any = 1 := by
  rw [Heap.getSize, found]
  cases impl with
  | array slots => exact absurd rfl (other slots)
  | _ => rfl

theorem yields_create {tree : Anything} (seen : heap.Unfolds tree any) :
    Yields x heap (create heap any) (Anything.leaves tree) := by
  by_cases isArray : ∃ slots, tree = .array slots
  · rcases isArray with ⟨slots, rfl⟩
    rw [Anything.leaves_array]
    exact .ahead rfl (ahead_create seen) nofun
  · have notArray : ∀ slots, tree ≠ .array slots := fun slots same =>
      isArray ⟨slots, same⟩
    by_cases isNull : tree = .null
    · subst isNull
      have none' : any = none := seen
      subst none'
      exact .ahead rfl (.done (Nat.le_refl 0)) nofun
    · rcases impl_of_leaf seen isNull notArray with ⟨impl, found, other⟩
      have size : heap.getSize any = 1 := getSize_leaf found other
      have alone : Ahead heap any (heap.getSize any) 0 [([], tree)] := by
        rw [size]
        exact .more (by omega) (.simple found other) seen (.done (Nat.le_refl 1))
      rw [Anything.leaves_leaf isNull]
      exact .ahead rfl alone nofun

/-- The i-th call returns the i-th leaf of the tree, and every call after the
last one returns nothing; no slot that was there before is changed. -/
theorem calls_leaves (x : XThing) (assignment : AnyAssignment) {heap : Heap}
    {tree : Anything} {any : Handle} (seen : heap.Unfolds tree any) (n : Nat) :
    ∃ results more it, Settles (fun fuel =>
          calls x assignment fuel n heap (create heap any))
        (results, heap ++ more, it) ∧
      List.Forall₂ (Option.Rel (heap ++ more).Unfolds)
        ((List.range n).map fun i => (Anything.leaves tree)[i]?) results ∧
      (heap ++ more).Unfolds tree any := by
  rcases @Yields.calls x assignment heap _ _ n (yields_create seen) with
    ⟨results, more, it, settles, returned⟩
  exact ⟨results, more, it, settles, returned, seen.append more⟩

/-- An array with an array that has only an empty array, a number and a Null
as its slots. -/
def nestedHeap : Heap :=
  [.array [], .array [([], some 0)], .long 5, .array [([65], some 1), ([66], some 2), ([], none)]]

theorem nestedHeap_unfolds :
    nestedHeap.Unfolds
      (.array [([65], .array [([], .array [])]), ([66], .long 5), ([], .null)]) (some 3) :=
  ⟨_, rfl, _, _, rfl, ⟨_, rfl, _, _, rfl, ⟨_, rfl, rfl⟩, rfl⟩, _, _, rfl, rfl, _, _, rfl, rfl, rfl⟩

theorem calls_leaves_nested :
    ∃ results more it,
      Settles (fun fuel => calls .anything .shared fuel 4 nestedHeap (create nestedHeap (some 3)))
        (results, nestedHeap ++ more, it) ∧
      List.Forall₂ (Option.Rel (nestedHeap ++ more).Unfolds)
        [some (.long 5), some .null, none, none] results := by
  rcases calls_leaves .anything .shared nestedHeap_unfolds 4 with
    ⟨results, more, it, settles, returned, -⟩
  exact ⟨results, more, it, settles, returned⟩

end LeafIterator

end Coast

