import Coast.Base.AnyReference

/-!
# The part of the heap that is written to

What is reached from a handle is a region that no handle leads out of.
Whoever writes through references into the region, and makes new
implementations, changes nothing outside of it.
-/

namespace Coast

open List Option

namespace Slots

variable {α : Type}

variable {slots : Slots α}

theorem mem_setIndex {i : Nat} {value : α} :
    ∀ slot ∈ slots.setIndex i value, slot.2 = value ∨ ∃ old ∈ slots, slot.2 = old.2 := by
  intro slot member
  rcases mem_iff_getElem?.mp member with ⟨place, here⟩
  rw [setIndex, getElem?_modify] at here
  rcases map_eq_some_iff.mp here with ⟨old, there, same⟩
  by_cases hit : i = place
  · rw [← same, if_pos hit]
    exact Or.inl rfl
  · rw [← same, if_neg hit]
    exact Or.inr ⟨old, mem_of_getElem? there, rfl⟩

theorem mem_setValue {i : Nat} {write : α → α} :
    ∀ slot ∈ slots.setValue i write, ∃ old ∈ slots, slot.2 = old.2 ∨ slot.2 = write old.2 := by
  intro slot member
  rcases mem_iff_getElem?.mp member with ⟨place, here⟩
  rw [setValue, getElem?_modify] at here
  rcases map_eq_some_iff.mp here with ⟨old, there, same⟩
  refine ⟨old, mem_of_getElem? there, ?_⟩
  by_cases hit : i = place
  · rw [← same, if_pos hit]
    exact Or.inr rfl
  · rw [← same, if_neg hit]
    exact Or.inl rfl

variable [Inhabited α]

theorem mem_atKey {key : Option Bytes} {write : α → α} :
    ∀ slot ∈ slots.atKey key write, slot.2 = write default ∨
      ∃ old ∈ slots, slot.2 = old.2 ∨ slot.2 = write old.2 := by
  intro slot member
  rw [atKey] at member
  split at member
  · exact Or.inr (mem_setValue slot member)
  · rcases mem_append.mp member with old | new
    · exact Or.inr ⟨slot, old, Or.inl rfl⟩
    · rw [mem_singleton.mp new]
      exact Or.inl rfl

theorem mem_at {i : Nat} :
    ∀ slot ∈ slots.at_ i id, slot.2 = default ∨ ∃ old ∈ slots, slot.2 = old.2 := by
  intro slot member
  rcases mem_setValue slot member with ⟨old, among, same⟩
  have same : slot.2 = old.2 := same.elim id id
  rcases mem_append.mp among with known | added
  · exact Or.inr ⟨old, known, same⟩
  · rw [same, eq_of_mem_replicate added]
    exact Or.inl rfl

end Slots

namespace Heap

@[simp]
theorem length_update (heap : Heap) (place : Nat) (write : Slots Handle → Slots Handle) :
    (heap.update place write).length = heap.length :=
  length_modify ..

variable {place : Nat}

theorem update_elsewhere (heap : Heap) {other : Nat}
    (write : Slots Handle → Slots Handle) (different : other ≠ place) :
    (heap.update place write)[other]? = heap[other]? :=
  getElem?_modify_ne _ _ (Ne.symm different)

theorem update_at (heap : Heap) (place : Nat) (write : Slots Handle → Slots Handle) :
    (heap.update place write)[place]? = heap[place]?.map (AnyImpl.mapSlots write) :=
  getElem?_modify_eq ..

variable {heap : Heap} {slots : Slots Handle}

theorem update_here
    (write : Slots Handle → Slots Handle) (found : heap[place]? = some (.array slots)) :
    (heap.update place write)[place]? = some (.array (write slots)) := by
  rw [update_at, found]
  rfl

theorem arrayAt_of (found : heap[place]? = some (.array slots)) : heap.arrayAt place = slots := by
  rw [arrayAt, found]

variable {any : Handle}

theorem isArray_iff :
    heap.isArray any = true ↔
      ∃ place slots, any = some place ∧ heap[place]? = some (.array slots) := by
  constructor
  · intro array
    rw [isArray] at array
    split at array
    · rename_i slots found
      cases any with
      | none => cases found
      | some place => exact ⟨place, slots, rfl, found⟩
    · cases array
  · rintro ⟨place, slots, rfl, found⟩
    rw [isArray, impl, bind_some, found]

def Inside (In : Nat → Prop) (heap : Heap) (any : Handle) : Prop :=
  ∀ place, any = some place → In place ∧ place < heap.length

variable {In : Nat → Prop}

theorem inside_none : Inside In heap none := by
  intro place same
  cases same

theorem Inside.grow {more : Heap}
    (inside : Inside In heap any) (grows : heap.length ≤ more.length) :
    Inside In more any :=
  fun place same =>
    ⟨(inside place same).1, Nat.lt_of_lt_of_le (inside place same).2 grows⟩

def Closed (In : Nat → Prop) (heap : Heap) : Prop :=
  ∀ place impl, In place → heap[place]? = some impl → ∀ any ∈ impl.handles, Inside In heap any

section

variable (closed : Closed In heap)
include closed

theorem Closed.slot (here : In place) :
    ∀ slot ∈ heap.arrayAt place, Inside In heap slot.2 := by
  intro slot member
  rw [arrayAt] at member
  split at member
  · rename_i slots found
    exact closed place _ here found slot.2 (mem_map_of_mem member)
  · cases member

theorem Closed.append {more : Heap}
    (inside : ∀ impl ∈ more, ∀ any ∈ impl.handles, Inside In (heap ++ more) any) :
    Closed In (heap ++ more) := by
  intro place impl here found any member
  by_cases known : place < heap.length
  · rw [getElem?_append_left known] at found
    exact (closed place impl here found any member).grow (by simp)
  · rw [getElem?_append_right (not_lt.mp known)] at found
    exact inside impl (mem_of_getElem? found) any member

theorem Closed.update {write : Slots Handle → Slots Handle}
    (keeps : ∀ slot ∈ write (heap.arrayAt place), Inside In heap slot.2) :
    Closed In (heap.update place write) := by
  intro other impl there found any member
  suffices inside : Inside In heap any from inside.grow (by simp)
  by_cases same : other = place
  · rw [same, update_at] at found
    rcases map_eq_some_iff.mp found with ⟨old, known, rfl⟩
    cases old with
    | array slots =>
      rw [arrayAt_of known] at keeps
      rcases mem_map.mp member with ⟨slot, among, rfl⟩
      exact keeps slot among
    | _ => cases member
  · rw [update_elsewhere heap write same] at found
    exact closed other impl there found any member

theorem Closed.setIndex (here : In place) (inside : Inside In heap any)
    (i : Nat) : ∀ slot ∈ (heap.arrayAt place).setIndex i any, Inside In heap slot.2 := by
  intro slot member
  rcases Slots.mem_setIndex slot member with new | ⟨old, among, same⟩
  · rw [new]
    exact inside
  · rw [same]
    exact closed.slot here old among

end

theorem slot_of_mem {Q : Handle → Prop} (null : Q none) (all : ∀ slot ∈ slots, Q slot.2) (i : Nat) :
    Q (Heap.slot slots i) := by
  rw [Heap.slot]
  cases here : slots[i]? with
  | none => exact null
  | some slot =>
    have named := all slot (mem_of_getElem? here)
    exact named

def Holds (heap : Heap) (holder held : Nat) : Prop :=
  ∃ impl, heap[holder]? = some impl ∧ some held ∈ impl.handles

def Reaches (heap : Heap) (any : Handle) (place : Nat) : Prop :=
  ∃ root, any = some root ∧ Relation.ReflTransGen (Holds heap) root place

theorem Reaches.inside (reaches : Reaches heap any place)
    (closed : Closed In heap) (inside : Inside In heap any) :
    In place ∧ place < heap.length := by
  rcases reaches with ⟨root, same, path⟩
  induction path with
  | refl => exact inside root same
  | tail _ holds ih =>
    rcases holds with ⟨impl, found, member⟩
    exact closed _ impl ih.1 found _ member _ rfl

theorem Reaches.step {inner : Nat} {impl : AnyImpl} (reaches : Reaches heap any place)
    (found : heap[place]? = some impl)
    (member : some inner ∈ impl.handles) : Reaches heap any inner := by
  rcases reaches with ⟨root, same, path⟩
  exact ⟨root, same, path.tail ⟨impl, found, member⟩⟩

/-! ## Writing inside of a region -/

/-- The heap after writes into the region and to one slot outside of it,
which is to hold what `Top` allows. -/
structure Confined (In : Nat → Prop) (top : AnyRef) (Top : Handle → Prop)
    (before heap : Heap) : Prop where
  grows : before.length ≤ heap.length
  closed : Closed In heap
  others : ∀ place < before.length, ¬ In place → place ≠ top.place → heap[place]? = before[place]?
  atTop : ∃ any, Top any ∧ Inside In heap any ∧ heap[top.place]? = some
    (AnyImpl.array ((before.arrayAt top.place).setIndex top.index any))
  arrays : ∀ (place : Nat) (slots : Slots Handle), before[place]? = some (AnyImpl.array slots) →
    ∃ slots', heap[place]? = some (AnyImpl.array slots')

/-- The region has all that is new, and the one slot is outside of it. -/
structure Region (In : Nat → Prop) (top : AnyRef) (before : Heap) : Prop where
  fresh : ∀ place, before.length ≤ place → In place
  apart : ¬ In top.place
  inArray : top.index < (before.arrayAt top.place).length

variable {In : Nat → Prop} {top : AnyRef} {Top : Handle → Prop} {before heap : Heap}

theorem setIndex_slot (slots : Slots Handle) (i : Nat) :
    slots.setIndex i (slot slots i) = slots := by
  apply ext_getElem?
  intro j
  rw [Slots.setIndex, getElem?_modify, slot]
  by_cases same : i = j
  · subst same
    cases slots[i]? with
    | none => rfl
    | some slot => simp
  · simp [same]

section

variable (region : Region In top before)
include region

theorem Confined.start (closed : Closed In before) (allowed : Top (before.get top))
    (inside : Inside In before (before.get top)) :
    Confined In top Top before before := by
  refine ⟨le_rfl, closed, fun _ _ _ _ => rfl, ?_, fun _ slots found => ⟨slots, found⟩⟩
  refine ⟨before.get top, allowed, inside, ?_⟩
  have inArray := region.inArray
  rw [arrayAt] at inArray
  split at inArray
  · rename_i slots found
    rw [found, get, arrayAt_of found, setIndex_slot]
  · cases inArray

variable (confined : Confined In top Top before heap)
include confined

theorem Confined.step {heap' : Heap}
    (grows : heap.length ≤ heap'.length) (closed : Closed In heap')
    (same : ∀ place < heap.length, ¬ In place → heap'[place]? = heap[place]?)
    (arrays : ∀ (place : Nat) (slots : Slots Handle), heap[place]? = some (AnyImpl.array slots) →
        ∃ slots', heap'[place]? = some (AnyImpl.array slots')) :
    Confined In top Top before heap' := by
  refine ⟨le_trans confined.grows grows, closed, ?_, ?_, ?_⟩
  · intro place known outside different
    rw [same place (lt_of_lt_of_le known confined.grows) outside]
    exact confined.others place known outside different
  · rcases confined.atTop with ⟨any, allowed, inside, found⟩
    have known := (List.getElem?_eq_some_iff.mp found).choose
    exact ⟨any, allowed, inside.grow grows, (same top.place known region.apart).trans found⟩
  · intro place slots found
    rcases confined.arrays place slots found with ⟨slots', here⟩
    exact arrays place slots' here

theorem Confined.append {more : Heap}
    (inside : ∀ impl ∈ more, ∀ any ∈ impl.handles, Inside In (heap ++ more) any) :
    Confined In top Top before (heap ++ more) := by
  refine confined.step region (by simp) (confined.closed.append inside) ?_ ?_
  · intro place known _
    exact getElem?_append_left known
  · intro place slots found
    have known := (List.getElem?_eq_some_iff.mp found).choose
    exact ⟨slots, (getElem?_append_left known).trans found⟩

theorem Confined.update {write : Slots Handle → Slots Handle} (here : In place)
    (keeps : ∀ slot ∈ write (heap.arrayAt place), Inside In heap slot.2) :
    Confined In top Top before (heap.update place write) := by
  refine confined.step region (by simp) (confined.closed.update keeps) ?_ ?_
  · intro other _ outside
    apply update_elsewhere
    rintro rfl
    exact outside here
  · intro other slots found
    by_cases same : other = place
    · subst same
      exact ⟨_, update_here write found⟩
    · exact ⟨slots, (update_elsewhere heap write same).trans found⟩

end

private theorem setIndex_setIndex (slots : Slots Handle) (i : Nat) (first second : Handle) :
    (slots.setIndex i first).setIndex i second = slots.setIndex i second := by
  rw [Slots.setIndex, Slots.setIndex, Slots.setIndex, modify_modify_eq]
  rfl

theorem Confined.put_top (region : Region In top before)
    (confined : Confined In top Top before heap) (allowed : Top any) (inside : Inside In heap any) :
    Confined In top Top before (heap.put top any) := by
  rcases confined.atTop with ⟨old, -, -, found⟩
  have written := update_here (fun slots => slots.setIndex top.index any) found
  rw [setIndex_setIndex] at written
  refine ⟨?_, ?_, ?_, ?_, ?_⟩
  · rw [put, length_update]
    exact confined.grows
  · intro place impl here at_ other member
    have different : place ≠ top.place := by
      rintro rfl
      exact region.apart here
    rw [put, update_elsewhere heap _ different] at at_
    exact (confined.closed place impl here at_ other member).grow (by rw [put, length_update])
  · intro place known outside different
    rw [put, update_elsewhere heap _ different]
    exact confined.others place known outside different
  · exact ⟨any, allowed, inside.grow (by rw [put, length_update]), written⟩
  · intro place slots known
    by_cases same : place = top.place
    · subst same
      exact ⟨_, written⟩
    · rw [put, update_elsewhere heap _ same]
      exact confined.arrays place slots known

/-! ## Through references -/

theorem slot_setIndex {i : Nat} (inArray : i < slots.length) (any : Handle) :
    slot (slots.setIndex i any) i = any := by
  rw [slot, Slots.setIndex, getElem?_modify_eq, getElem?_eq_getElem inArray]
  rfl

theorem Confined.get_top (region : Region In top before)
    (confined : Confined In top Top before heap) :
    Top (heap.get top) ∧ Inside In heap (heap.get top) := by
  rcases confined.atTop with ⟨any, allowed, inside, found⟩
  have held : heap.get top = any := by
    rw [get, arrayAt_of found]
    exact slot_setIndex region.inArray any
  rw [held]
  exact ⟨allowed, inside⟩

variable {ref : AnyRef}

theorem Confined.get_inside (confined : Confined In top Top before heap) (here : In ref.place) :
    Inside In heap (heap.get ref) :=
  slot_of_mem inside_none (confined.closed.slot here) ref.index

/-- A reference that everything but Null may be assigned to. -/
def Assignable (In : Nat → Prop) (top : AnyRef) (Top : Handle → Prop) (ref : AnyRef) : Prop :=
  In ref.place ∨ ref = top ∧ ∀ any, any ≠ none → Top any

def Writable (In : Nat → Prop) (top : AnyRef) (Top : Handle → Prop)
    (before : Heap) (ref : AnyRef) : Prop :=
  Assignable In top Top ref ∨ ref = top ∧ ∀ any, Top any → before.isArray any = true

theorem Confined.put_inside (region : Region In top before)
    (confined : Confined In top Top before heap) (here : In ref.place)
    (inside : Inside In heap any) :
    Confined In top Top before (heap.put ref any) := by
  exact confined.update region here (confined.closed.setIndex here inside ref.index)

theorem Confined.put (region : Region In top before) (confined : Confined In top Top before heap)
    (assignable : Assignable In top Top ref) (notNull : any ≠ none) (inside : Inside In heap any) :
    Confined In top Top before (heap.put ref any) := by
  rcases assignable with here | ⟨rfl, free⟩
  · exact confined.put_inside region here inside
  · exact confined.put_top region (free any notNull) inside

/-- What an access leaves, and the place that it found or made. -/
structure Accessed (In : Nat → Prop) (top : AnyRef) (Top : Handle → Prop)
    (before heap : Heap) (any : Handle) (result : Heap × Handle × Option AnyRef) : Prop where
  confined : Confined In top Top before result.1
  grows : heap.length ≤ result.1.length
  notNull : result.2.1 ≠ none
  inside : Inside In result.1 result.2.1
  ref : ∀ ref, result.2.2 = some ref → In ref.place
  kept : heap.isArray any = true → result.2.1 = any ∧ ∃ ref, result.2.2 = some ref

theorem expand_some (heap : Heap) (any : Handle) : ∃ place, (heap.expand any).2 = some place := by
  rw [expand]
  split
  · rename_i array
    rcases isArray_iff.mp array with ⟨place, -, rfl, -⟩
    exact ⟨place, rfl⟩
  · exact ⟨heap.length, rfl⟩

theorem expand_array (array : heap.isArray any = true) : heap.expand any = (heap, any) := by
  rw [expand, if_pos array]

theorem Closed.slots_inside (closed : Closed In heap) (inside : Inside In heap any) :
    ∀ slot ∈ heap.slots any, Inside In heap slot.2 := by
  intro slot among
  rw [Heap.slots] at among
  split at among
  · cases among
  · rename_i slots found
    cases any with
    | none => cases found
    | some place =>
      exact closed place _ (inside place rfl).1 found slot.2 (mem_map_of_mem among)
  · rw [mem_singleton.mp among]
    exact inside

section

variable (region : Region In top before)
include region

variable (confined : Confined In top Top before heap)
include confined

theorem Confined.expand (inside : Inside In heap any) :
    Confined In top Top before (heap.expand any).1 ∧ heap.length ≤ (heap.expand any).1.length ∧
      Inside In (heap.expand any).1 (heap.expand any).2 := by
  rw [Heap.expand]
  split
  · exact ⟨confined, le_rfl, inside⟩
  · refine ⟨?_, by simp, ?_⟩
    · refine confined.append region ?_
      intro impl new other member
      rw [mem_singleton.mp new] at member
      rcases mem_map.mp member with ⟨slot, among, rfl⟩
      have known := confined.closed.slots_inside inside slot among
      exact known.grow (by simp)
    · intro place same
      cases same
      exact ⟨region.fresh _ confined.grows, by simp⟩

theorem Confined.doGetAt (notNull : any ≠ none) (inside : Inside In heap any) (i : Int) :
    Accessed In top Top before heap any (heap.doGetAt any i) := by
  rw [Heap.doGetAt]
  split
  · rename_i array
    rcases isArray_iff.mp array with ⟨place, slots, rfl, found⟩
    have here : In place := (inside place rfl).1
    refine ⟨?_, by simp, notNull, inside.grow (by simp), ?_, fun _ => ⟨rfl, _, rfl⟩⟩
    · refine confined.update region here ?_
      intro slot member
      rcases Slots.mem_at slot member with new | ⟨old, among, same⟩
      · rw [new]
        exact inside_none
      · rw [same]
        exact confined.closed.slot here old among
    · intro ref same
      cases same
      exact here
  · rename_i leaf
    refine ⟨confined, le_rfl, notNull, inside, fun ref same => ?_, fun array => ?_⟩
    · cases same
    · exact absurd array leaf

theorem Confined.doAt (inside : Inside In heap any) (i : Int) :
    Accessed In top Top before heap any (heap.doAt any i) := by
  rw [Heap.doAt]
  split
  · rcases confined.expand region inside with ⟨expanded, grows, within⟩
    rcases expand_some heap any with ⟨place, holds⟩
    have accessed := expanded.doGetAt region (by rw [holds]; exact nofun) within i
    refine ⟨accessed.confined, le_trans grows accessed.grows,
      accessed.notNull, accessed.inside, accessed.ref, ?_⟩
    intro array
    have kept := accessed.kept
    rw [expand_array array] at kept ⊢
    exact kept array
  · rename_i unexpanded
    exact confined.doGetAt region (fun null => unexpanded (Or.inr null)) inside i

theorem Confined.doAtKey (inside : Inside In heap any) (k : Bytes) :
    Accessed In top Top before heap any (heap.doAtKey any k) := by
  rw [Heap.doAtKey]
  split
  · exact confined.doAt region inside _
  · split
    · rcases confined.expand region inside with ⟨expanded, grows, within⟩
      rcases expand_some heap any with ⟨place, holds⟩
      have here : In place := (within place holds).1
      rw [newKey, holds]
      refine ⟨?_, by simpa using grows, nofun, (holds ▸ within).grow (by simp), ?_, ?_⟩
      · refine expanded.update region here ?_
        intro slot member
        rcases Slots.mem_atKey slot member with new | ⟨old, among, same⟩
        · rw [new]
          exact inside_none
        · rw [same.elim id id]
          exact expanded.closed.slot here old among
      · intro ref same
        cases same
        exact here
      · intro array
        rw [expand_array array] at holds
        exact ⟨holds.symm, _, rfl⟩
    · exact confined.doAt region inside _

end

/-- What an access to a slot of what a reference refers to leads to. -/
structure Reached (In : Nat → Prop) (top : AnyRef) (Top : Handle → Prop)
    (before heap : Heap) (result : Heap × AnyRef) : Prop where
  confined : Confined In top Top before result.1
  grows : heap.length ≤ result.1.length
  assignable : Assignable In top Top result.2

section

variable (region : Region In top before)
include region

variable (confined : Confined In top Top before heap)
include confined

variable (writable : Writable In top Top before ref)
include writable

theorem Confined.through {result : Heap × Handle × Option AnyRef}
    (accessed : Accessed In top Top before heap (heap.get ref) result) :
    Reached In top Top before heap (Heap.through ref result) := by
  have grows : heap.length ≤ (Heap.through ref result).1.length := by
    rw [Heap.through, Heap.put, length_update]
    exact accessed.grows
  rcases writable with assignable | ⟨rfl, arrays⟩
  · refine ⟨accessed.confined.put region assignable accessed.notNull accessed.inside, grows, ?_⟩
    rw [Heap.through]
    cases led : result.2.2 with
    | none => exact assignable
    | some slot => exact Or.inl (accessed.ref slot led)
  · have held := (confined.get_top region).1
    have array : heap.isArray (heap.get ref) = true := by
      rcases isArray_iff.mp (arrays _ held) with ⟨place, slots, same, found⟩
      rcases confined.arrays place slots found with ⟨slots', here⟩
      exact isArray_iff.mpr ⟨place, slots', same, here⟩
    rcases accessed.kept array with ⟨same, slot, led⟩
    refine ⟨accessed.confined.put_top region ?_ accessed.inside, grows, ?_⟩
    · rw [same]
      exact held
    · rw [Heap.through, led]
      exact Or.inl (accessed.ref slot led)

theorem Confined.get_writable :
    Inside In heap (heap.get ref) := by
  rcases writable with (here | ⟨rfl, -⟩) | ⟨rfl, -⟩
  · exact confined.get_inside here
  · exact (confined.get_top region).2
  · exact (confined.get_top region).2

theorem Confined.refAt (i : Int) :
    Reached In top Top before heap (heap.refAt ref i) :=
  confined.through region writable (confined.doAt region (confined.get_writable region writable) i)

theorem Confined.refAtKey (k : Bytes) :
    Reached In top Top before heap (heap.refAtKey ref k) :=
  confined.through region writable
    (confined.doAtKey region (confined.get_writable region writable) k)

end

theorem doGetAt_led (i : Int) (array : heap.isArray any = true) :
    ∃ ref, (heap.doGetAt any i).2.2 = some ref := by
  rw [doGetAt, if_pos array]
  exact ⟨_, rfl⟩

theorem expand_isArray (heap : Heap) (any : Handle) :
    (heap.expand any).1.isArray (heap.expand any).2 = true := by
  rw [expand]
  split
  · assumption
  · rw [isArray, impl_alloc]

theorem doAt_led (i : Int) (array : heap.isArray any = true) :
    ∃ ref, (heap.doAt any i).2.2 = some ref := by
  rw [doAt, expand_array array]
  split
  · exact doGetAt_led i array
  · exact doGetAt_led i array

theorem doAt_size_led (known : ∀ place, any = some place → place < heap.length) :
    ∃ ref, (heap.doAt any (heap.getSize any)).2.2 = some ref := by
  cases any with
  | none =>
    rw [doAt, if_pos (Or.inr rfl)]
    exact doGetAt_led _ (expand_isArray heap none)
  | some place =>
    by_cases array : heap.isArray (some place) = true
    · exact doAt_led _ array
    · have size : heap.getSize (some place) = 1 := by
        rw [getSize, impl, bind_some, getElem?_eq_getElem (known place rfl)]
        rw [isArray, impl, bind_some, getElem?_eq_getElem (known place rfl)] at array
        split at array
        · exact absurd rfl array
        · rename_i leaf
          split
          · rename_i missing
            cases missing
          · rename_i slots found
            exact absurd found (leaf slots)
          · rfl
      rw [doAt, size, if_pos (Or.inl (by decide))]
      exact doGetAt_led _ (expand_isArray heap (some place))

theorem isArray_of_findIndex {text : Bytes} {sizehint hashhint i : Nat}
    (found : heap.findIndex any text sizehint hashhint = some i) :
    heap.isArray any = true := by
  rw [findIndex] at found
  rw [isArray]
  cases here : heap.impl any with
  | none =>
    rw [here] at found
    cases found
  | some impl =>
    rw [here] at found
    cases impl with
    | array slots => rfl
    | _ => cases found

theorem doAtKey_led (known : ∀ place, any = some place → place < heap.length) (k : Bytes) :
    ∃ ref, (heap.doAtKey any k).2.2 = some ref := by
  rw [doAtKey]
  split
  · exact doAt_size_led known
  · split
    · exact ⟨_, rfl⟩
    · rename_i i found
      exact doAt_led _ (isArray_of_findIndex found)

variable {ref : AnyRef}

theorem Confined.refAtKey_inside (region : Region In top before)
    (confined : Confined In top Top before heap)
    (writable : Writable In top Top before ref) (k : Bytes) :
    In (heap.refAtKey ref k).2.place := by
  have inside := confined.get_writable region writable
  rcases doAtKey_led (fun place same => (inside place same).2) k with ⟨slot, led⟩
  rw [Heap.refAtKey, Heap.through, led]
  exact (confined.doAtKey region inside k).ref slot led

theorem Confined.refAt_size_inside (region : Region In top before)
    (confined : Confined In top Top before heap) (writable : Writable In top Top before ref) :
    In (heap.refAt ref (heap.getSize (heap.get ref))).2.place := by
  have inside := confined.get_writable region writable
  rcases doAt_size_led (fun place same => (inside place same).2) with ⟨slot, led⟩
  rw [Heap.refAt, Heap.through, led]
  exact (confined.doAt region inside _).ref slot led

end Heap

namespace Slots

variable {slots : Slots Handle}

theorem setValue_id (slots : Slots Handle) (i : Nat) : slots.setValue i id = slots := by
  apply ext_getElem?
  intro j
  rw [setValue, getElem?_modify]
  cases slots[j]? with
  | none => rfl
  | some slot => simp

theorem at_length (slots : Slots Handle) : slots.at_ slots.length id = slots ++ [([], none)] := by
  rw [at_, setValue_id, Nat.add_sub_cancel_left]
  rfl

theorem at_of_lt {i : Nat} (inside : i < slots.length) : slots.at_ i id = slots := by
  rw [at_, setValue_id, Nat.sub_eq_zero_of_le inside, replicate_zero, append_nil]

end Slots

namespace Heap

variable {heap : Heap} {place : Nat} {slots : Slots Handle}

theorem update_update (heap : Heap) (place : Nat) (first second : Slots Handle → Slots Handle) :
    (heap.update place first).update place second = heap.update place (second ∘ first) := by
  rw [update, update, update, modify_modify_eq]
  congr 1
  funext impl
  cases impl <;> rfl

section

variable (found : heap[place]? = some (AnyImpl.array slots))
include found

theorem update_congr {first second : Slots Handle → Slots Handle}
    (same : first slots = second slots) :
    heap.update place first = heap.update place second := by
  apply ext_getElem?
  intro other
  by_cases here : other = place
  · rw [here, update_here first found, update_here second found, same]
  · rw [update_elsewhere heap first here, update_elsewhere heap second here]

theorem update_self {write : Slots Handle → Slots Handle}
    (same : write slots = slots) : heap.update place write = heap := by
  apply ext_getElem?
  intro other
  by_cases here : other = place
  · rw [here, update_here write found, same, found]
  · exact update_elsewhere heap write here

theorem findIndex_array (key : Bytes) :
    heap.findIndex (some place) key 0 0 = slots.findIndex key := by
  rw [findIndex, impl, bind_some, found]
  rfl

theorem isArray_array : heap.isArray (some place) = true :=
  isArray_iff.mpr ⟨place, slots, rfl, found⟩

theorem getSize_array : heap.getSize (some place) = slots.length := by
  rw [getSize, impl, bind_some, found]

theorem roAtKey_array (key : Bytes) : heap.roAtKey (some place) key = (slots.lookup key).join := by
  rw [roAtKey, findIndex_array found, Slots.lookup]
  cases known : slots.findIndex key with
  | none => rfl
  | some i =>
    have inside := Slots.findIndex_lt known
    have range : ¬ ((i : Int) < 0 ∨ (heap.getSize (some place) : Int) ≤ i) := by
      rw [getSize_array found]
      omega
    simp only
    rw [ROAnythingLookup.at_, if_neg range, impl, bind_some, found]
    rfl

theorem doAt_array (i : Nat) :
    heap.doAt (some place) i =
      (heap.update place (Slots.at_ i id), some place, some ⟨place, i⟩) := by
  have array := isArray_array found
  have whole : heap.doGetAt (some place) i =
      (heap.update place (Slots.at_ i id), some place, some ⟨place, i⟩) := by
    rw [doGetAt, if_pos array]
    rfl
  rw [doAt, expand_array array]
  split
  · exact whole
  · exact whole

theorem doAtKey_array (key : Bytes) :
    heap.doAtKey (some place) key =
      match slots.findIndex key with
      | some i => (heap, some place, some ⟨place, i⟩)
      | none => (heap.update place (· ++ [(cstr key, none)]), some place,
          some ⟨place, slots.length⟩) := by
  have array := isArray_array found
  rw [doAtKey, findIndex_array found, getSize_array found]
  by_cases unnamed : cstr key = []
  · rw [if_pos unnamed, doAt_array found, Slots.findIndex, if_pos unnamed, unnamed]
    simp only
    congr 1
    apply update_congr found
    exact Slots.at_length slots
  · rw [if_neg unnamed]
    cases known : slots.findIndex key with
    | some i =>
      simp only
      rw [doAt_array found]
      congr 1
      apply update_self found
      exact Slots.at_of_lt (Slots.findIndex_lt known)
    | none =>
      simp only
      rw [expand_array array, newKey]
      simp only [getD_some, arrayAt_of found]
      congr 1
      apply update_congr found
      rw [Slots.atKey, bind_some, known]
      rfl

end

theorem update_append (more : Heap) (write : Slots Handle → Slots Handle)
    (inside : place < heap.length) :
    Heap.update (heap ++ more) place write = heap.update place write ++ more := by
  rw [update, update, modify_eq_take_cons_drop inside, modify_eq_take_cons_drop
      (lt_of_lt_of_le inside (by rw [length_append]; omega)),
    take_append_of_le_length inside.le,
    drop_append_of_le_length inside, getElem_append_left inside,
    append_assoc]
  rfl

theorem update_new (slots : Slots Handle) (write : Slots Handle → Slots Handle) :
    Heap.update (heap ++ [AnyImpl.array slots]) heap.length write =
      heap ++ [AnyImpl.array (write slots)] := by
  induction heap with
  | nil => rfl
  | cons impl heap ih =>
    exact congrArg (impl :: ·) ih

theorem put_get (heap : Heap) (ref : AnyRef) : heap.put ref (heap.get ref) = heap := by
  rw [put]
  cases found : heap[ref.place]? with
  | none =>
    exact modify_eq_self (getElem?_eq_none_iff.mp found)
  | some impl =>
    cases impl with
    | array slots =>
      apply update_self found
      rw [get, arrayAt_of found]
      exact setIndex_slot slots ref.index
    | _ =>
      apply ext_getElem?
      intro other
      by_cases here : other = ref.place
      · rw [here, update_at, found]
        rfl
      · exact update_elsewhere heap _ here

theorem slot_append (slots : Slots Handle) (added : Bytes × Handle) :
    slot (slots ++ [added]) slots.length = added.2 := by
  rw [slot, getElem?_concat_length]
  rfl

theorem setIndex_append (slots : Slots Handle) (key : Bytes) (old new : Handle) :
    Slots.setIndex (slots ++ [(key, old)]) slots.length new = slots ++ [(key, new)] := by
  induction slots with
  | nil => rfl
  | cons slot slots ih =>
    exact congrArg (slot :: ·) ih

end Heap

end Coast
