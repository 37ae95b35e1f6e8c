import Coast.Base.AnyMerge
import Coast.Base.SlotCleaner

/-!
# The cache handler

`CacheHandlerImpl` keeps what policies load in an Anything with a slot for
each group, which has a slot for each key.  `Get` hands out the Anything that
is kept.
-/

namespace Coast

open List

/-- "Group/Key pair identifies the cached object uniquely". -/
@[ext]
structure EntryName where
  group : Bytes
  key : Bytes
  /-- they are C strings -/
  groupEnds : NulFree group
  keyEnds : NulFree key
  deriving DecidableEq

namespace EntryName

def Named (name : EntryName) : Prop := name.group ≠ [] ∧ name.key ≠ []

instance (name : EntryName) : Decidable name.Named := inferInstanceAs (Decidable (_ ∧ _))

def path (name : EntryName) : Bytes := name.group ++ ch '.' :: name.key

def Plain (name : EntryName) : Prop :=
  (SlotStep.key name.group).Proper ∧ (SlotStep.key name.key).Proper ∧ keyHash name.group ≠ 0

instance (name : EntryName) : Decidable name.Plain := inferInstanceAs (Decidable (_ ∧ _ ∧ _))

theorem Plain.noIndex {name : EntryName} (plain : name.Plain) : ch ':' ∉ name.path := by
  rcases plain with ⟨⟨-, -, -, noColon⟩, ⟨-, -, -, keyColon⟩, -⟩
  intro member
  rcases mem_append.mp member with inGroup | inKey
  · exact noColon inGroup
  · rcases mem_cons.mp inKey with same | inKey
    · exact absurd same (by decide)
    · exact keyColon inKey

theorem path_ends (name : EntryName) : NulFree name.path := by
  intro member
  rcases mem_append.mp member with inGroup | inKey
  · exact name.groupEnds inGroup
  · rcases mem_cons.mp inKey with same | inKey
    · exact absurd same (by decide)
    · exact name.keyEnds inKey

end EntryName

/-- What a policy loads: new implementations, and a handle on one of them or
on one that was there before. -/
structure Loaded where
  objects : Heap
  any : Handle
  deriving DecidableEq

namespace CacheHandler

/-- `fCache` stays the array that it is made as. -/
abbrev fCache : Handle := some 0

def init : Heap := [.array []]

def get (heap : Heap) (name : EntryName) : Handle :=
  heap.roAtKey (heap.roAtKey fCache name.group) name.key

def isLoaded (heap : Heap) (name : EntryName) : Bool :=
  (heap.findIndex fCache name.group 0 0).isSome &&
    (heap.findIndex (heap.roAtKey fCache name.group) name.key 0 0).isSome

def entryRef (heap : Heap) (name : EntryName) : Heap × AnyRef :=
  let group := heap.doAtKey fCache name.group
  group.1.refAtKey (group.2.2.getD ⟨0, 0⟩) name.key

def store (heap : Heap) (name : EntryName) (toCache : Handle) : Heap :=
  let (heap, ref) := entryRef heap name
  heap.put ref toCache

def reloadSection (others : Nat → Nat) (depth : Nat) (heap : Heap)
    (name : EntryName) (toCache : Handle) : Option Heap :=
  if toCache = none then some heap
  else if isLoaded heap name then
    let (heap, ref) := entryRef heap name
    AnyUtils.anyMerge others depth heap ref toCache true
  else some (store heap name toCache)

def unloadSection (heap : Heap) (name : EntryName) : Heap :=
  SlotCleaner.operate heap fCache name.path false (ch '.') (ch ':')

/-- The array of the groups and the arrays of the entries.  Nobody else has
an Anything of them. -/
def owned (heap : Heap) : List Handle := fCache :: (heap.arrayAt 0).map Prod.snd

def Outside (heap : Heap) (place : Nat) : Prop := some place ∉ owned heap

instance (heap : Heap) (place : Nat) : Decidable (Outside heap place) :=
  inferInstanceAs (Decidable (_ ∉ _))

def Fits (heap : Heap) (loaded : Loaded) : Prop :=
  ∀ any ∈ loaded.any :: loaded.objects.flatMap AnyImpl.handles,
    any = none ∨ ∃ place < (heap ++ loaded.objects).length, any = some place ∧ Outside heap place

instance (heap : Heap) (loaded : Loaded) : Decidable (Fits heap loaded) :=
  inferInstanceAs (Decidable (∀ any ∈ _, any = none ∨
    ∃ place, place < _ ∧ any = some place ∧ Outside heap place))

/-- The cache is an array of arrays with different keys, which nobody else has. -/
structure CacheOk (heap : Heap) : Prop where
  root : heap[0]? = some (AnyImpl.array (heap.arrayAt 0))
  groupKeys : (heap.arrayAt 0).KeysOk
  groups : ∀ slot ∈ heap.arrayAt 0, ∃ place, slot.2 = some place ∧
    heap[place]? = some (AnyImpl.array (heap.arrayAt place)) ∧
    (heap.arrayAt place).KeysOk
  distinct : (owned heap).Nodup
  entries : ∀ place, some place ∈ (heap.arrayAt 0).map Prod.snd →
    ∀ entry ∈ heap.arrayAt place, entry.2 ≠ none ∧ Heap.Inside (Outside heap) heap entry.2
  closed : Heap.Closed (Outside heap) heap

theorem init_ok : CacheOk init where
  root := rfl
  groupKeys := ⟨nodup_nil, fun _ member => nomatch member⟩
  groups _ member := nomatch member
  distinct := by decide
  entries _ member := nomatch member
  closed := by
    intro place impl outside found any member
    cases place with
    | zero => exact absurd mem_cons_self outside
    | succ place => cases found

end CacheHandler

/-!
## The entries of the cache

What the operations do to the arrays of the cache handler.
-/

open Heap Option

namespace Slots

theorem KeysOk.join_lookup_iff {slots : Slots Handle}
    (keysOk : slots.KeysOk) {key : Bytes} (nulFree : NulFree key) (place : Nat) :
    (slots.lookup key).join = some place ↔ key ≠ [] ∧ (key, some place) ∈ slots := by
  rw [join_eq_some_iff]
  by_cases named : key = []
  · rw [named]
    constructor
    · intro found
      cases found
    · intro all
      exact absurd rfl all.1
  · rw [keysOk.lookup_eq_some_iff nulFree named]
    exact ⟨fun found => ⟨named, found⟩, fun all => all.2⟩

end Slots

namespace CacheHandler

variable {heap heap' : Heap} {name : EntryName}

def Group (heap : Heap) (place : Nat) : Prop := some place ∈ (heap.arrayAt 0).map Prod.snd

variable {place : Nat}

theorem CacheOk.group (ok : CacheOk heap) (group : Group heap place) :
    heap[place]? = some (AnyImpl.array (heap.arrayAt place)) ∧
    (heap.arrayAt place).KeysOk := by
  rcases mem_map.mp group with ⟨slot, among, same⟩
  rcases ok.groups slot among with ⟨other, held, found, keysOk⟩
  rw [held] at same
  cases same
  exact ⟨found, keysOk⟩

theorem CacheOk.group_ne (ok : CacheOk heap) (group : Group heap place) : place ≠ 0 := by
  rintro rfl
  exact (nodup_cons.mp ok.distinct).1 group

theorem Group.not_outside (group : Group heap place) : ¬ Outside heap place :=
  fun outside => outside (mem_cons_of_mem _ group)

theorem group_of_mem {slot : Bytes × Handle}
    (among : slot ∈ heap.arrayAt 0) (holds : slot.2 = some place) :
    Group heap place :=
  mem_map.mpr ⟨slot, among, holds⟩

section

variable (ok : CacheOk heap)
include ok

theorem CacheOk.group_unique {one other : Bytes} (first : (one, some place) ∈ heap.arrayAt 0)
    (second : (other, some place) ∈ heap.arrayAt 0) : one = other := by
  have distinct := (nodup_cons.mp ok.distinct).2
  have same := inj_on_of_nodup_map distinct first second rfl
  exact congrArg Prod.fst same

theorem get_eq_some_iff (name : EntryName) (entry : Nat) :
    get heap name = some entry ↔ name.Named ∧ ∃ place,
      (name.group, some place) ∈ heap.arrayAt 0 ∧ (name.key, some entry) ∈ heap.arrayAt place := by
  rw [get, fCache, roAtKey_array ok.root]
  constructor
  · intro found
    cases known : ((heap.arrayAt 0).lookup name.group).join with
    | none =>
      rw [known] at found
      cases found
    | some place =>
      rw [known] at found
      rcases (ok.groupKeys.join_lookup_iff name.groupEnds place).mp known with ⟨named, among⟩
      rcases ok.group (group_of_mem among rfl) with ⟨array, keysOk⟩
      rw [roAtKey_array array] at found
      rcases (keysOk.join_lookup_iff name.keyEnds entry).mp found with ⟨keyed, inside⟩
      exact ⟨⟨named, keyed⟩, place, among, inside⟩
  · rintro ⟨⟨named, keyed⟩, place, among, inside⟩
    rw [(ok.groupKeys.join_lookup_iff name.groupEnds place).mpr ⟨named, among⟩]
    rcases ok.group (group_of_mem among rfl) with ⟨array, keysOk⟩
    rw [roAtKey_array array]
    exact (keysOk.join_lookup_iff name.keyEnds entry).mpr ⟨keyed, inside⟩

theorem CacheOk.get_inside (name : EntryName) : Inside (Outside heap) heap (get heap name) := by
  intro entry found
  rcases (get_eq_some_iff ok name entry).mp found with ⟨-, place, among, inside⟩
  have kept := ok.entries place (group_of_mem among rfl) _ inside
  exact kept.2 entry rfl

theorem isLoaded_iff (name : EntryName) : isLoaded heap name = true ↔ get heap name ≠ none := by
  rw [isLoaded, get, fCache, findIndex_array ok.root, roAtKey_array ok.root, Bool.and_eq_true]
  cases known : (heap.arrayAt 0).lookup name.group with
  | none =>
    have absent : (heap.arrayAt 0).isDefined name.group = false := by
      rw [Slots.isDefined_eq, known]
      rfl
    constructor
    · intro both
      rw [Slots.isDefined] at absent
      rw [absent] at both
      cases both.1
    · intro found
      exact absurd rfl found
  | some held =>
    have present : (heap.arrayAt 0).isDefined name.group = true := by
      rw [Slots.isDefined_eq, known]
      rfl
    rw [Slots.isDefined] at present
    have named : name.group ≠ [] := by
      intro unnamed
      rw [unnamed] at known
      cases known
    have among := (ok.groupKeys.lookup_eq_some_iff name.groupEnds named held).mp known
    rcases ok.groups _ among with ⟨place, rfl, array, keysOk⟩
    rw [join_some, roAtKey_array array, findIndex_array array]
    have defined := Slots.isDefined_eq (heap.arrayAt place) name.key
    rw [Slots.isDefined] at defined
    rw [defined]
    refine ⟨fun both => ?_, fun found => ⟨present, ?_⟩⟩
    · rcases isSome_iff_exists.mp both.2 with ⟨entry, here⟩
      have keyed : name.key ≠ [] := by
        intro unnamed
        rw [unnamed] at here
        cases here
      have inside := (keysOk.lookup_eq_some_iff name.keyEnds keyed entry).mp here
      have kept := ok.entries place (group_of_mem among rfl) _ inside
      rw [here]
      exact kept.1
    · cases here : (heap.arrayAt place).lookup name.key with
      | none =>
        rw [here] at found
        exact absurd rfl found
      | some entry => rfl

end

/-! ## What is stored -/

def groupAt (heap : Heap) (group : Bytes) : Handle := ((heap.arrayAt 0).lookup group).join

theorem refAtKey_array {ref : AnyRef} {slots : Slots Handle} (held : heap.get ref = some place)
    (found : heap[place]? = some (AnyImpl.array slots)) (apart : ref.place ≠ place) (key : Bytes) :
    heap.refAtKey ref key =
      match slots.findIndex key with
      | some i => (heap, ⟨place, i⟩)
      | none =>
        (heap.update place (· ++ [(cstr key, none)]), ⟨place, slots.length⟩) := by
  rw [refAtKey, held, doAtKey_array found]
  cases slots.findIndex key with
  | some i =>
    simp only [through]
    rw [← held, put_get]
    rfl
  | none =>
    simp only [through]
    have kept : (heap.update place (· ++ [(cstr key, none)])).get ref = some place := by
      rw [Heap.get, arrayAt, update_elsewhere heap _ apart]
      exact held
    rw [← kept, put_get]
    rfl

theorem refAtKey_null {ref : AnyRef} (held : heap.get ref = none) (key : Bytes) :
    heap.refAtKey ref key = (Heap.put (heap ++ [AnyImpl.array [(cstr key, none)]]) ref
        (some heap.length), ⟨heap.length, 0⟩) := by
  have notArray : heap.isArray none = false := rfl
  have expanded : heap.expand none = (heap ++ [AnyImpl.array []], some heap.length) := by
    rw [expand, notArray, if_neg (by decide)]
    rfl
  have array : Heap.isArray (heap ++ [AnyImpl.array []]) (some heap.length) = true := by
    rw [isArray, Heap.impl_alloc]
  rw [refAtKey, held, doAtKey]
  by_cases unnamed : cstr key = []
  · have size : heap.getSize none = 0 := rfl
    rw [if_pos unnamed, size, doAt, if_pos (Or.inr rfl), expanded, doGetAt, if_pos array, unnamed]
    simp only [through, getD_some]
    rw [update_new]
    rfl
  · have absent : heap.findIndex none key 0 0 = none := rfl
    have missing : (Slots.findIndex ([] : Slots Handle) key) = none := by
      rw [Slots.findIndex, if_neg unnamed]
      rfl
    rw [if_neg unnamed, absent]
    simp only
    rw [expanded, newKey]
    simp only [through, getD_some]
    rw [update_new, Slots.atKey, bind_some, missing, arrayAt, getElem?_concat_length]
    rfl

theorem findIndex_of_lookup {slots : Slots Handle} {key : Bytes}
    {any : Handle} (found : slots.lookup key = some any) :
    ∃ i, slots.findIndex key = some i ∧ slot slots i = any := by
  rcases bind_eq_some_iff.mp found with ⟨i, known, here⟩
  refine ⟨i, known, ?_⟩
  rw [slot, here]
  rfl

variable (ok : CacheOk heap)
include ok

theorem groupAt_some {group : Bytes}
    (ends : NulFree group) (found : groupAt heap group = some place) :
    Group heap place ∧ ∃ i, (heap.arrayAt 0).findIndex group = some i ∧
      heap.get ⟨0, i⟩ = some place := by
  rcases (ok.groupKeys.join_lookup_iff ends place).mp found with ⟨-, among⟩
  refine ⟨group_of_mem among rfl, ?_⟩
  exact findIndex_of_lookup (join_eq_some_iff.mp found)

theorem groupAt_none {group : Bytes} (absent : groupAt heap group = none) :
    (heap.arrayAt 0).findIndex group = none := by
  by_contra present
  rcases ne_none_iff_exists'.mp present with ⟨i, found⟩
  have inside := Slots.findIndex_lt found
  rcases ok.groups _ (getElem_mem inside) with ⟨place, held, -⟩
  have known : (heap.arrayAt 0).lookup group = some (some place) := by
    rw [Slots.lookup, found, bind_some, getElem?_eq_getElem inside, map_some, held]
  rw [groupAt, known] at absent
  cases absent

theorem entryRef_known (found : groupAt heap name.group = some place) :
    entryRef heap name =
      match (heap.arrayAt place).findIndex name.key with
      | some i => (heap, ⟨place, i⟩)
      | none => (heap.update place (· ++ [(name.key, none)]),
          ⟨place, (heap.arrayAt place).length⟩) := by
  rcases groupAt_some ok name.groupEnds found with ⟨group, i, known, held⟩
  rw [entryRef, fCache, doAtKey_array ok.root, known]
  simp only [getD_some]
  rw [refAtKey_array held (ok.group group).1 (ok.group_ne group).symm, cstr_of_nulFree name.keyEnds]

theorem store_known (found : groupAt heap name.group = some place) (toCache : Handle) :
    store heap name toCache = heap.update place (Slots.setKey · name.key toCache) := by
  rcases groupAt_some ok name.groupEnds found with ⟨group, -⟩
  have array := (ok.group group).1
  rw [store, entryRef_known ok found]
  cases known : (heap.arrayAt place).findIndex name.key with
  | some i =>
    simp only
    apply update_congr array
    rw [Slots.setKey, known]
  | none =>
    simp only
    rw [put, update_update]
    apply update_congr array
    rw [Function.comp_apply, setIndex_append, Slots.setKey, known, cstr_of_nulFree name.keyEnds]

/-- A store makes the array of its group. -/
theorem store_new (absent : groupAt heap name.group = none) (toCache : Handle) :
    store heap name toCache = heap.update 0 (· ++ [(name.group, some heap.length)]) ++
        [AnyImpl.array [(name.key, toCache)]] := by
  have inHeap : 0 < heap.length := (List.getElem?_eq_some_iff.mp ok.root).choose
  have grown := update_here (· ++ [(name.group, none)]) ok.root
  have held : (heap.update 0 (· ++ [(name.group, none)])).get
      ⟨0, (heap.arrayAt 0).length⟩ = none := by
    rw [Heap.get, arrayAt_of grown]
    exact slot_append _ _
  rw [store, entryRef, fCache, doAtKey_array ok.root,
    groupAt_none ok absent, cstr_of_nulFree name.groupEnds]
  simp only [getD_some]
  rw [refAtKey_null held, cstr_of_nulFree name.keyEnds, length_update]
  simp only
  rw [put, put, update_append _ _ (by rw [length_update]; exact inHeap), update_update]
  have same : (heap.update 0
      ((fun slots => slots.setIndex (heap.arrayAt 0).length
        (some heap.length)) ∘ (· ++ [(name.group, none)]))) =
      heap.update 0 (· ++ [(name.group, some heap.length)]) := by
    apply update_congr ok.root
    rw [Function.comp_apply, setIndex_append]
  rw [same]
  have last := @update_new (heap.update 0
    (· ++ [(name.group, some heap.length)])) [(name.key, none)]
    (fun slots => slots.setIndex 0 toCache)
  rw [length_update] at last
  exact last

end CacheHandler

end Coast
