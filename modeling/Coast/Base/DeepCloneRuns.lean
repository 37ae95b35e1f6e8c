import Coast.Base.DeepClone
import Mathlib.Data.Finset.Card

/-!
# Runs of DeepClone

While arrays are being cloned their copies grow; every other copy looks like
its original.  A way down never comes to an implementation again before the
table knows it, so the nested calls are no more than the implementations.
-/

namespace Coast

open List Option Nat

theorem length_lowerHexDigits (count n : Nat) : (lowerHexDigits count n).length = count := by
  induction count generalizing n with
  | zero => rfl
  | succ count ih =>
    rw [lowerHexDigits, length_append, ih]
    rfl

private theorem lowerHexDigit_injective :
    ∀ n < 16, ∀ m < 16, lowerHexDigit n = lowerHexDigit m → n = m := by
  decide +kernel

private theorem mod_eq_of_lowerHexDigits (count : Nat) {n m : Nat}
    (same : lowerHexDigits count n = lowerHexDigits count m) :
    n % 16 ^ count = m % 16 ^ count := by
  induction count generalizing n m with
  | zero => rw [pow_zero, mod_one, mod_one]
  | succ count ih =>
    obtain ⟨high, low⟩ := append_inj' same rfl
    have digit := lowerHexDigit_injective (n % 16)
      (mod_lt n (by decide)) (m % 16) (mod_lt m (by decide)) (List.cons.inj low).1
    rw [pow_succ', mod_mul, mod_mul, digit, ih high]

theorem thisToHex_injective {n m : Nat} (nSmall : n < 2 ^ 64)
    (mSmall : m < 2 ^ 64) (same : thisToHex n = thisToHex m) : n = m := by
  have equal := mod_eq_of_lowerHexDigits 16 same
  have size : 16 ^ 16 = 2 ^ 64 := by decide
  rwa [size, mod_eq_of_lt nSmall, mod_eq_of_lt mSmall] at equal

private theorem lowerHexDigit_ne_zero : ∀ n < 16, lowerHexDigit n ≠ 0 := by
  decide +kernel

theorem nulFree_lowerHexDigits (count n : Nat) : NulFree (lowerHexDigits count n) := by
  induction count generalizing n with
  | zero => exact not_mem_nil
  | succ count ih =>
    intro member
    rcases mem_append.mp member with high | low
    · exact ih (n / 16) high
    · exact lowerHexDigit_ne_zero (n % 16) (mod_lt n (by decide))
        (mem_singleton.mp low).symm

theorem nulFree_thisToHex (place : Nat) : NulFree (thisToHex place) :=
  nulFree_lowerHexDigits 16 place

theorem thisToHex_ne_nil (place : Nat) : thisToHex place ≠ [] := by
  intro empty
  have length := length_lowerHexDigits 16 place
  rw [← thisToHex, empty] at length
  cases length

namespace Slots

variable {α : Type}

theorem KeysOk.notMem_of_lookup {slots : Slots α} (keysOk : slots.KeysOk)
    {key : Bytes} (nulFree : NulFree key) (named : key ≠ [])
    (absent : slots.lookup key = none) : key ∉ slots.keys := by
  intro member
  rcases mem_map.mp (mem_filter.mp member).1 with ⟨slot, inside, rfl⟩
  rw [(keysOk.lookup_eq_some_iff nulFree named slot.2).mpr inside] at absent
  cases absent

theorem KeysOk.lookup_setKey_iff {slots : Slots α} (keysOk : slots.KeysOk) {key other : Bytes}
    (nulFree : NulFree key) (named : key ≠ []) (absent : slots.lookup key = none)
    (otherFree : NulFree other) (otherNamed : other ≠ []) (entered value : α) :
    (slots.setKey key entered).lookup other = some value ↔
      slots.lookup other = some value ∨ other = key ∧ value = entered := by
  have fresh := keysOk.notMem_of_lookup nulFree named absent
  rw [(keysOk.setKey nulFree entered).lookup_eq_some_iff otherFree otherNamed,
    keysOk.lookup_eq_some_iff otherFree otherNamed, setKey_of_notMem entered nulFree fresh,
    mem_append, mem_singleton, Prod.mk.injEq]

theorem atKey_new {slots : Slots Handle} {key : Bytes}
    (nulFree : NulFree key) (absent : key ∉ slots.keys) (value : Handle) :
    slots.atKey (slotNameOf key) (fun _ => value) = slots ++ [(key, value)] := by
  have same := cstr_of_nulFree nulFree
  by_cases named : key.length > 0
  · have new : slots.findIndex key = none := findIndex_eq_none (by rwa [same])
    rw [slotNameOf, if_pos named, atKey, bind_some, new]
    simp only [map_some, getD_some, same]
  · have empty : key = [] := length_eq_zero_iff.mp (by omega)
    rw [slotNameOf, if_neg named, empty]
    rfl

end Slots

def SlotCopied (pairs : Nat → Nat → Prop) (slot copy : Bytes × Handle) : Prop :=
  slot.1 = copy.1 ∧ Option.Rel pairs slot.2 copy.2

def Copied (pairs : Nat → Nat → Prop) : AnyImpl → AnyImpl → Prop
  | .array slots, copy => ∃ copies, copy = .array copies ∧
      List.Forall₂ (SlotCopied pairs) slots copies
  | impl, copy => copy = impl

variable {pairs pairs' : Nat → Nat → Prop}

theorem relMono (more : ∀ place copy, pairs place copy → pairs' place copy)
    {handle copy : Handle} (related : Option.Rel pairs handle copy) :
    Option.Rel pairs' handle copy := by
  cases related with
  | some pair => exact .some (more _ _ pair)
  | none => exact .none

variable {copies : Slots Handle}

theorem slotsMono (more : ∀ place copy, pairs place copy → pairs' place copy) {slots : Slots Handle}
    (copied : List.Forall₂ (SlotCopied pairs) slots copies) :
    List.Forall₂ (SlotCopied pairs') slots copies :=
  copied.imp fun _ _ slot => ⟨slot.1, relMono more slot.2⟩

theorem Copied.mono (more : ∀ place copy, pairs place copy → pairs' place copy)
    {impl copy : AnyImpl} (copied : Copied pairs impl copy) :
    Copied pairs' impl copy := by
  cases impl with
  | array slots =>
    rcases copied with ⟨copies, same, each⟩
    exact ⟨copies, same, slotsMono more each⟩
  | _ => exact copied

theorem keys_of_copied {slots : Slots Handle}
    (copied : List.Forall₂ (SlotCopied pairs) slots copies) :
    copies.keys = slots.keys := by
  induction copied with
  | nil => rfl
  | @cons slot copy slots copies first _ ih =>
    rcases slot with ⟨key, value⟩
    rcases copy with ⟨copyKey, clone⟩
    obtain rfl : key = copyKey := first.1
    rw [Slots.keys_cons, Slots.keys_cons, ih]

/-- A state in the middle of a run: `pairs` are the implementations and their
copies so far, `grows` are the copies that are not complete. -/
structure Cloning (graph : AnyGraph) (pairs : Nat → Nat → Prop)
    (grows : Nat → Prop) (st : CloneState) : Prop where
  source : graph.heap <+: st.heap
  bounds : ∀ {place copy}, pairs place copy →
    place < graph.heap.length ∧ graph.heap.length ≤ copy ∧ copy < st.heap.length
  original : ∀ {place other copy}, pairs place copy → pairs other copy → place = other
  counted : ∀ {place copy other}, 1 < graph.refCount place →
    pairs place copy → pairs place other → copy = other
  keysOk : st.xreftable.KeysOk
  table : ∀ {place copy}, place < graph.heap.length → 1 < graph.refCount place →
      (st.xreftable.lookup (thisToHex place) = some copy ↔ pairs place copy)
  complete : ∀ {place copy impl}, pairs place copy → ¬ grows copy →
    graph.heap[place]? = some impl → ∃ clone, st.heap[copy]? = some clone ∧ Copied pairs impl clone

variable {graph : AnyGraph} {grows : Nat → Prop} {st : CloneState}

variable {place : Nat}

theorem Cloning.impl (cloning : Cloning graph pairs grows st) (inside : place < graph.heap.length) :
    st.heap[place]? = graph.heap[place]? := by
  rcases cloning.source with ⟨more, same⟩
  rw [← same, getElem?_append_left inside]

/-- The way down to an implementation whose copies are known. -/
structure Descent (graph : AnyGraph) (pairs : Nat → Nat → Prop)
    (holders : List Nat) (handle : Handle) : Prop where
  held : ∀ place, handle = some place → graph.source.HeldBy holders place
  distinct : holders.Nodup
  inside : ∀ holder ∈ holders, holder < graph.heap.length
  known : ∀ holder ∈ holders, ∃ copy, pairs holder copy

variable {holders : List Nat}

theorem Descent.length_le {handle : Handle} (descent : Descent graph pairs holders handle) :
    holders.length ≤ graph.heap.length := by
  have subset : holders.toFinset ⊆ Finset.range graph.heap.length := by
    intro holder member
    exact Finset.mem_range.mpr (descent.inside holder (mem_toFinset.mp member))
  have card := Finset.card_le_card subset
  rwa [toFinset_card_of_nodup descent.distinct, Finset.card_range] at card

theorem Descent.inside_of_handle (descent : Descent graph pairs holders (some place)) :
    place < graph.heap.length := by
  have held := descent.held place rfl
  cases holders with
  | nil => exact graph.rootInside place held
  | cons holder holders =>
    rcases held.1 with ⟨i, inSlot⟩
    exact AnyGraph.inside_of_slot inSlot

theorem thisToHex_eq_iff {other : Nat} (inside : place < graph.heap.length)
    (otherInside : other < graph.heap.length) :
    thisToHex place = thisToHex other ↔ place = other :=
  ⟨thisToHex_injective (lt_of_lt_of_le inside graph.addressable)
    (lt_of_lt_of_le otherInside graph.addressable),
    fun same => congrArg thisToHex same⟩

theorem Descent.inner {i : Nat} {impl : AnyImpl}
    {value : Handle} (descent : Descent graph pairs holders (some place))
    (apart : place ∉ holders) (entered : ∃ copy, pairs place copy)
    (found : graph.heap[place]? = some impl) (inSlot : impl.handles[i]? = some value) :
    Descent graph pairs (place :: holders) value where
  held inner same := by
    subst same
    exact ⟨⟨i, Heap.slot_eq_some.mpr ⟨impl, found, inSlot⟩⟩, descent.held place rfl⟩
  distinct := nodup_cons.mpr ⟨apart, descent.distinct⟩
  inside holder member := by
    rcases mem_cons.mp member with rfl | above
    · exact descent.inside_of_handle
    · exact descent.inside holder above
  known holder member := by
    rcases mem_cons.mp member with rfl | above
    · exact entered
    · exact descent.known holder above

theorem Descent.mono (more : ∀ place copy, pairs place copy → pairs' place copy) {handle : Handle}
    (descent : Descent graph pairs holders handle) :
    Descent graph pairs' holders handle :=
  { descent with
    known := fun holder member =>
      (descent.known holder member).imp fun _ => more _ _ }

def enter (pairs : Nat → Nat → Prop) (place copy : Nat) : Nat → Nat → Prop :=
  fun other otherCopy =>
    pairs other otherCopy ∨ other = place ∧ otherCopy = copy

theorem Cloning.allocate (cloning : Cloning graph pairs grows st)
    {impl : AnyImpl} {xreftable : Slots Nat} (inside : place < graph.heap.length)
    (new : 1 < graph.refCount place → ∀ copy, ¬ pairs place copy) (keysOk : xreftable.KeysOk)
    (table : ∀ {other copy}, other < graph.heap.length → 1 < graph.refCount other →
        (xreftable.lookup (thisToHex other) = some copy ↔
          enter pairs place st.heap.length other copy)) :
    Cloning graph (enter pairs place st.heap.length)
      (fun copy => grows copy ∨ copy = st.heap.length)
      ⟨st.heap ++ [impl.clone], xreftable⟩ where
  source := cloning.source.trans (prefix_append st.heap [impl.clone])
  bounds := by
    rintro other copy (pair | ⟨rfl, rfl⟩)
    · have bounds := cloning.bounds pair
      rw [length_append]
      exact ⟨bounds.1, bounds.2.1, by omega⟩
    · have length := cloning.source.length_le
      rw [length_append]
      exact ⟨inside, length, by simp⟩
  original := by
    rintro first second copy (pair | ⟨rfl, rfl⟩) (pair' | ⟨rfl, same⟩)
    · exact cloning.original pair pair'
    · have bounds := cloning.bounds pair
      omega
    · have bounds := cloning.bounds pair'
      omega
    · rfl
  counted := by
    rintro other copy copy' several (pair | ⟨rfl, rfl⟩) (pair' | ⟨same, rfl⟩)
    · exact cloning.counted several pair pair'
    · rw [same] at pair several
      exact absurd pair (new several copy)
    · exact absurd pair' (new several copy')
    · rfl
  keysOk := keysOk
  table := table
  complete := by
    rintro other copy original (pair | ⟨rfl, rfl⟩) complete found
    · have still : ¬ grows copy := fun grown => complete (Or.inl grown)
      rcases cloning.complete pair still found with ⟨clone, seen, copied⟩
      refine ⟨clone, ?_, copied.mono fun _ _ => Or.inl⟩
      rw [getElem?_append_left (cloning.bounds pair).2.2]
      exact seen
    · exact absurd (Or.inr rfl) complete

theorem Cloning.close {copy : Nat} {impl clone : AnyImpl}
    (cloning : Cloning graph pairs (fun other => grows other ∨ other = copy) st)
    (pair : pairs place copy) (found : graph.heap[place]? = some impl)
    (seen : st.heap[copy]? = some clone) (copied : Copied pairs impl clone) :
    Cloning graph pairs grows st :=
  { cloning with
    complete := by
      intro other otherCopy original otherPair complete otherFound
      by_cases same : otherCopy = copy
      · subst same
        obtain rfl := cloning.original pair otherPair
        rw [found] at otherFound
        obtain rfl := Option.some.inj otherFound
        exact ⟨clone, seen, copied⟩
      · exact cloning.complete otherPair (fun grown => grown.elim complete same) otherFound }

theorem heap_assign (pImpl : Nat) (key : Bytes) (value : Handle)
    (st : CloneState) (place : Nat) (other : place ≠ pImpl) :
    (st.assign pImpl key value).heap[place]? = st.heap[place]? := by
  unfold CloneState.assign
  have apart : pImpl ≠ place := fun same => other same.symm
  simp [apart]

theorem length_assign (pImpl : Nat) (key : Bytes) (value : Handle) (st : CloneState) :
    (st.assign pImpl key value).heap.length = st.heap.length :=
  length_modify _ _ _

theorem Cloning.assign {pImpl : Nat}
    (cloning : Cloning graph pairs (fun copy => grows copy ∨ copy = pImpl) st)
    (behind : graph.heap.length ≤ pImpl) (key : Bytes) (value : Handle) :
    Cloning graph pairs (fun copy => grows copy ∨ copy = pImpl)
      (st.assign pImpl key value) :=
  { cloning with
    source := by
      have length := cloning.source.length_le
      rw [prefix_iff_getElem?]
      intro place inside
      rw [heap_assign _ _ _ _ _ (by omega)]
      exact (prefix_iff_getElem?.mp cloning.source) place inside
    bounds := by
      rw [length_assign]
      exact cloning.bounds
    complete := by
      intro place copy impl pair complete found
      rw [heap_assign _ _ _ _ _ fun same => complete (Or.inr same)]
      exact cloning.complete pair complete found }

theorem heap_assign_new {pImpl : Nat} {key : Bytes} (seen : st.heap[pImpl]? = some (.array copies))
    (nulFree : NulFree key) (absent : key ∉ copies.keys) (value : Handle) :
    (st.assign pImpl key value).heap[pImpl]? = some (.array (copies ++ [(key, value)])) := by
  unfold CloneState.assign
  rw [getElem?_modify, seen]
  simp [Slots.atKey_new nulFree absent value]

/-- What a call has done: the copies that were there have not changed. -/
structure Cloned (graph : AnyGraph) (pairs : Nat → Nat → Prop)
    (grows : Nat → Prop) (st : CloneState) (handle : Handle)
    (pairs' : Nat → Nat → Prop) (clone : Handle) (st' : CloneState) :
    Prop where
  cloning : Cloning graph pairs' grows st'
  more : ∀ place copy, pairs place copy → pairs' place copy
  heap : st.heap <+: st'.heap
  related : Option.Rel pairs' handle clone

structure SlotsCloned (graph : AnyGraph) (pairs : Nat → Nat → Prop)
    (grows : Nat → Prop) (pImpl : Nat) (st : CloneState)
    (slots : Slots Handle) (pairs' : Nat → Nat → Prop) (st' : CloneState) :
    Prop where
  cloning : Cloning graph pairs' (fun copy => grows copy ∨ copy = pImpl) st'
  more : ∀ place copy, pairs place copy → pairs' place copy
  longer : st.heap.length ≤ st'.heap.length
  others : ∀ copy < st.heap.length, copy ≠ pImpl → st'.heap[copy]? = st.heap[copy]?
  copied : ∃ copies, st'.heap[pImpl]? = some (.array copies) ∧
    List.Forall₂ (SlotCopied pairs') slots copies

/-- The slots are cloned in turn, each with its own descent. -/
theorem cloneSlots_spec {deepClone : Handle → CloneState → Option (Handle × CloneState)}
    {pImpl : Nat}
    (spec : ∀ {value : Handle} {st : CloneState} {pairs : Nat → Nat → Prop},
      Cloning graph pairs (fun copy => grows copy ∨ copy = pImpl) st →
        Descent graph pairs (place :: holders) value →
          ∃ clone st' pairs', deepClone value st = some (clone, st') ∧
            Cloned graph pairs (fun copy => grows copy ∨ copy = pImpl) st value pairs' clone st')
    (apart : place ∉ holders) (slots : Slots Handle) :
    ∀ {before copies : Slots Handle} {st : CloneState}
      {pairs : Nat → Nat → Prop},
      graph.heap[place]? = some (.array (before ++ slots)) →
      Cloning graph pairs (fun copy => grows copy ∨ copy = pImpl) st →
      pairs place pImpl → Descent graph pairs holders (some place) →
      st.heap[pImpl]? = some (.array copies) →
      List.Forall₂ (SlotCopied pairs) before copies →
      ∃ st' pairs', cloneSlots deepClone pImpl slots st = some st' ∧
        SlotsCloned graph pairs grows pImpl st (before ++ slots) pairs' st' := by
  induction slots with
  | nil =>
    intro before copies st pairs found cloning pair descent seen copied
    refine ⟨st, pairs, rfl, cloning, fun _ _ => id, le_refl _, fun _ _ _ => rfl, copies, seen, ?_⟩
    rwa [append_nil]
  | cons slot slots ih =>
    intro before copies st pairs found cloning pair descent seen copied
    rcases slot with ⟨key, value⟩
    have inSlot : (AnyImpl.array (before ++ (key, value) :: slots)).handles[
        before.length]? = some value := by
      simp [AnyImpl.handles]
    rcases spec cloning (descent.inner apart ⟨pImpl, pair⟩ found inSlot) with
      ⟨clone, st1, pairs1, called, cloned⟩
    have here : pImpl < st.heap.length := (cloning.bounds pair).2.2
    have seen1 : st1.heap[pImpl]? = some (.array copies) := by
      rw [← seen]
      exact ((prefix_iff_getElem?.mp cloned.heap) pImpl here).trans
        (getElem?_eq_getElem here).symm
    have copied1 := slotsMono cloned.more copied
    -- the keys of an array differ, so the next one is new in the copy
    have keysOk := graph.keysOk _ (mem_of_getElem? found)
    have nulFree : NulFree key := keysOk.nulFree_name (key, value) (by simp)
    have absent : key ∉ copies.keys := by
      rw [keys_of_copied copied]
      intro member
      have distinct := keysOk.distinct
      rw [Slots.keys_append, Slots.keys_cons] at distinct
      have named : key ≠ [] := (Slots.mem_keys_iff.mp member).1
      rw [if_neg named] at distinct
      exact (disjoint_of_nodup_append distinct) member (by simp)
    have written := heap_assign_new seen1 nulFree absent clone
    have copied2 : List.Forall₂ (SlotCopied pairs1)
        (before ++ [(key, value)]) (copies ++ [(key, clone)]) :=
      rel_append copied1 (.cons ⟨rfl, cloned.related⟩ .nil)
    have behind := (cloning.bounds pair).2.1
    have next : graph.heap[place]? = some (.array ((before ++ [(key, value)]) ++ slots)) := by
      rw [found, append_assoc]
      rfl
    rcases ih next (cloned.cloning.assign behind key clone)
        (cloned.more _ _ pair) (descent.mono cloned.more) written copied2
      with ⟨st', pairs', looped, rest⟩
    refine ⟨st', pairs', ?_, rest.cloning,
      fun _ _ known => rest.more _ _ (cloned.more _ _ known), ?_, ?_, ?_⟩
    · rw [cloneSlots, called]
      exact looped
    · have grown := cloned.heap.length_le
      have longer := rest.longer
      rw [length_assign] at longer
      omega
    · intro copy inside other
      have grown := cloned.heap.length_le
      rw [rest.others copy (by rw [length_assign]; omega) other, heap_assign _ _ _ _ _ other]
      exact ((prefix_iff_getElem?.mp cloned.heap) copy inside).trans
        (getElem?_eq_getElem inside).symm
    · rcases rest.copied with ⟨copies', seen', copied'⟩
      refine ⟨copies', seen', ?_⟩
      rwa [append_assoc] at copied'

theorem doDeepClone_spec {deepClone : Handle → CloneState → Option (Handle × CloneState)}
    {impl : AnyImpl} {xreftable : Slots Nat}
    (spec : ∀ {value : Handle} {st' : CloneState}
      {pairs : Nat → Nat → Prop},
      Cloning graph pairs (fun copy => grows copy ∨ copy = st.heap.length)
          st' →
        Descent graph pairs (place :: holders) value →
          ∃ clone st'' pairs', deepClone value st' = some (clone, st'') ∧
            Cloned graph pairs (fun copy => grows copy ∨ copy = st.heap.length) st' value
              pairs' clone st'') (apart : place ∉ holders) (found : graph.heap[place]? = some impl)
    (descent : Descent graph pairs holders (some place))
    (cloning : Cloning graph (enter pairs place st.heap.length)
      (fun copy => grows copy ∨ copy = st.heap.length)
      ⟨st.heap ++ [impl.clone], xreftable⟩) :
    ∃ clone st' pairs', doDeepClone deepClone impl st.heap.length
          ⟨st.heap ++ [impl.clone], xreftable⟩ = some (clone, st') ∧
        Cloned graph pairs grows st (some place) pairs' clone st' := by
  have pair : enter pairs place st.heap.length place st.heap.length := Or.inr ⟨rfl, rfl⟩
  have seen : (st.heap ++ [impl.clone])[st.heap.length]? = some impl.clone := by
    simp
  cases impl with
  | array slots =>
    have nothing : List.Forall₂ (SlotCopied (enter pairs place st.heap.length)) [] [] := .nil
    have whole : graph.heap[place]? = some (.array ([] ++ slots)) := found
    rcases cloneSlots_spec spec apart slots whole cloning pair
        (descent.mono fun _ _ => Or.inl) seen nothing with
      ⟨st', pairs', looped, rest⟩
    rcases rest.copied with ⟨copies, seen', copied⟩
    refine ⟨_, st', pairs', ?_, rest.cloning.close (rest.more _ _ pair)
      found seen' ⟨copies, rfl, copied⟩,
      fun _ _ known => rest.more _ _ (Or.inl known), ?_,
      .some (rest.more _ _ pair)⟩
    · rw [doDeepClone, looped]
      rfl
    · rw [prefix_iff_getElem?]
      intro copy inside
      rw [rest.others copy (by
        rw [length_append]
        omega) (by omega)]
      exact (getElem?_append_left inside).trans (getElem?_eq_getElem inside)
  | _ =>
    exact ⟨_, _, _, rfl, cloning.close pair found seen rfl,
      fun _ _ => Or.inl, prefix_append _ _, .some pair⟩

section Equations

variable {refCount : Nat → Nat} {fuel place : Nat} {impl : AnyImpl}

variable (found : st.heap[place]? = some impl)
include found

theorem deepClone_known (several : 1 < refCount place) {pObj : Nat}
    (entry : st.xreftable.lookup (thisToHex place) = some pObj) :
    deepClone refCount (fuel + 1) (some place) st = some (some pObj, st) := by
  rw [deepClone, found, bind_some, if_pos several]
  simp only [entry]

theorem deepClone_entered (several : 1 < refCount place)
    (entry : st.xreftable.lookup (thisToHex place) = none) :
    deepClone refCount (fuel + 1) (some place) st =
      doDeepClone (deepClone refCount fuel) impl st.heap.length
        ⟨st.heap ++ [impl.clone], st.xreftable.setKey (thisToHex place) st.heap.length⟩ := by
  rw [deepClone, found, bind_some, if_pos several]
  simp only [entry]

theorem deepClone_alone (alone : ¬ 1 < refCount place) :
    deepClone refCount (fuel + 1) (some place) st =
      doDeepClone (deepClone refCount fuel) impl st.heap.length
        ⟨st.heap ++ [impl.clone], st.xreftable⟩ := by
  rw [deepClone, found, bind_some, if_neg alone]

end Equations

/-- A call clones what it reaches, if there are calls enough. -/
theorem deepClone_spec (fuel : Nat) :
    ∀ {holders : List Nat} {handle : Handle} {st : CloneState}
      {pairs : Nat → Nat → Prop} {grows : Nat → Prop},
      graph.heap.length < fuel + holders.length →
      Cloning graph pairs grows st → Descent graph pairs holders handle →
      ∃ clone st' pairs', deepClone graph.refCount fuel handle st = some (clone, st') ∧
          Cloned graph pairs grows st handle pairs' clone st' := by
  induction fuel with
  | zero =>
    intro holders handle st pairs grows enough cloning descent
    have bounded := descent.length_le
    omega
  | succ fuel ih =>
    intro holders handle st pairs grows enough cloning descent
    cases handle with
    | none =>
      exact ⟨none, st, pairs, rfl, cloning, fun _ _ => id, prefix_refl _, .none⟩
    | some place =>
      have inside := descent.inside_of_handle
      have found := getElem?_eq_getElem inside
      have seen := (cloning.impl inside).trans found
      have spec : ∀ {value : Handle} {st' : CloneState}
          {pairs : Nat → Nat → Prop},
          Cloning graph pairs
              (fun copy => grows copy ∨ copy = st.heap.length) st' →
            Descent graph pairs (place :: holders) value →
              ∃ clone st'' pairs', deepClone graph.refCount fuel value st' = some (clone, st'') ∧
                  Cloned graph pairs (fun copy => grows copy ∨ copy = st.heap.length) st'
                    value pairs' clone st'' :=
        fun cloning' descent' => ih (by
          rw [length_cons]
          omega) cloning' descent'
      have nulFree := nulFree_thisToHex place
      have named := thisToHex_ne_nil place
      by_cases several : 1 < graph.refCount place
      · have known : ∀ copy, st.xreftable.lookup (thisToHex place) = some copy ↔ pairs place copy :=
          fun copy => cloning.table inside several
        rcases eq_none_or_eq_some (st.xreftable.lookup (thisToHex place)) with entry | ⟨pObj, entry⟩
        · rw [deepClone_entered seen several entry]
          have new : ∀ copy, ¬ pairs place copy := by
            intro copy pair
            rw [(known copy).mpr pair] at entry
            cases entry
          have apart : place ∉ holders := fun member =>
            (descent.known place member).elim new
          refine doDeepClone_spec spec apart found descent
            (cloning.allocate inside (fun _ => new) (cloning.keysOk.setKey nulFree _) ?_)
          intro other copy otherInside otherSeveral
          rw [cloning.keysOk.lookup_setKey_iff nulFree named entry
            (nulFree_thisToHex other) (thisToHex_ne_nil other),
            cloning.table otherInside otherSeveral]
          rw [thisToHex_eq_iff otherInside inside]
          rfl
        · exact ⟨some pObj, st, pairs, deepClone_known seen several entry, cloning, fun _ _ => id,
            prefix_refl _, .some ((known pObj).mp entry)⟩
      · have alone : ¬ graph.source.Shared place := fun shared =>
          several (AnyGraph.one_lt_refCount shared)
        have apart : place ∉ holders := (descent.held place rfl).notMem descent.distinct alone
        rw [deepClone_alone seen several]
        refine doDeepClone_spec spec apart found descent
          (cloning.allocate inside (fun shared => absurd shared several) cloning.keysOk ?_)
        intro other copy otherInside otherSeveral
        rw [cloning.table otherInside otherSeveral]
        constructor
        · exact Or.inl
        · rintro (pair | ⟨rfl, -⟩)
          · exact pair
          · exact absurd otherSeveral several

end Coast
