import Coast.Base.AnyArrayOperations
import Coast.Base.Decimal

/-!
# The slots and the text of an Anything

The accessors that programs use on every kind of Anything: a simple value is
its own only slot.
-/

namespace Coast

open List Option

/-! ## Slots by their key -/

namespace Slots

variable {α : Type}

theorem isDefined_eq (slots : Slots α) (key : Bytes) :
    slots.isDefined key = (slots.lookup key).isSome := by
  unfold isDefined lookup
  cases found : slots.findIndex key with
  | none => rfl
  | some i =>
    unfold findIndex at found
    split at found
    · cases found
    · have inside := (findIdx?_eq_some_iff_getElem.mp found).choose
      rw [bind_some, getElem?_eq_getElem inside]
      rfl

variable {slots : Slots α}

theorem KeysOk.nulFree_name (keysOk : slots.KeysOk) : ∀ slot ∈ slots, NulFree slot.1 := by
  intro slot member
  by_cases unnamed : slot.1 = []
  · rw [unnamed]
    exact not_mem_nil
  · exact keysOk.nulFree _ (mem_filter.mpr
      ⟨mem_map_of_mem member, by simpa using unnamed⟩)

variable {key : Bytes}

theorem KeysOk.lookup_eq_some_iff
    (keysOk : slots.KeysOk) (nulFree : NulFree key) (named : key ≠ []) (value : α) :
    slots.lookup key = some value ↔ (key, value) ∈ slots := by
  have index := keysOk.findIndex_eq_some_iff nulFree named
  constructor
  · intro found
    rcases bind_eq_some_iff.mp found with ⟨i, at_, seen⟩
    rcases map_eq_some_iff.mp seen with ⟨slot, here, same⟩
    have carried := (index i).mp at_
    unfold keyOf at carried
    rw [here] at carried
    exact mem_iff_getElem?.mpr ⟨i, here.trans (congrArg some (Prod.ext carried same))⟩
  · intro member
    rcases mem_iff_getElem?.mp member with ⟨i, here⟩
    have carried : slots.keyOf i = key := by
      unfold keyOf
      rw [here]
      rfl
    unfold lookup
    rw [(index i).mpr carried, bind_some, here]
    rfl

theorem KeysOk.setKey (keysOk : slots.KeysOk) (nulFree : NulFree key) (value : α) :
    (slots.setKey key value).KeysOk := by
  unfold Slots.setKey
  cases found : slots.findIndex key with
  | some place =>
    exact keysOk.of_keys_eq (keys_of_map_fst (map_fst_setValue place (fun _ => value) slots))
  | none =>
    have same := cstr_of_nulFree nulFree
    rw [same]
    by_cases named : key = []
    · apply keysOk.of_keys_eq
      rw [named, keys_append]
      exact append_nil _
    · have absent : key ∉ slots.keys := by
        intro member
        rcases mem_keys_iff.mp member with ⟨-, place, here⟩
        have known := (keysOk.findIndex_eq_some_iff nulFree named place).mpr here
        rw [found] at known
        cases known
      have added : keys (slots ++ [(key, value)]) = slots.keys ++ [key] := by
        rw [keys_append, keys_cons, if_neg named]
        rfl
      refine ⟨?_, ?_⟩
      · rw [added]
        exact concat_eq_append ▸ keysOk.distinct.concat absent
      · intro other member
        rw [added] at member
        rcases mem_append.mp member with old | new
        · exact keysOk.nulFree other old
        · rw [mem_singleton.mp new]
          exact nulFree

theorem mem_setKey {value : α} :
    ∀ slot ∈ slots.setKey key value, slot.2 = value ∨ ∃ old ∈ slots, old.2 = slot.2 := by
  intro slot member
  unfold Slots.setKey at member
  cases found : slots.findIndex key with
  | some i =>
    rw [found] at member
    rcases mem_iff_getElem?.mp member with ⟨place, here⟩
    unfold setIndex at here
    rw [getElem?_modify] at here
    rcases map_eq_some_iff.mp here with ⟨old, there, same⟩
    by_cases hit : i = place
    · rw [← same, if_pos hit]
      exact Or.inl rfl
    · rw [← same, if_neg hit]
      exact Or.inr ⟨old, mem_of_getElem? there, rfl⟩
  | none =>
    rw [found] at member
    rcases mem_append.mp member with old | new
    · exact Or.inr ⟨slot, old, rfl⟩
    · rw [mem_singleton.mp new]
      exact Or.inl rfl

def setKeys (slots added : Slots α) : Slots α :=
  added.foldl (fun slots slot => slots.setKey slot.1 slot.2) slots

theorem KeysOk.setKeys {added : Slots α} (nulFree : ∀ slot ∈ added, NulFree slot.1) :
    ∀ {slots : Slots α}, slots.KeysOk → (slots.setKeys added).KeysOk := by
  induction added with
  | nil => exact fun keysOk => keysOk
  | cons slot added ih =>
    intro slots keysOk
    exact ih (forall_mem_cons.mp nulFree).2 (keysOk.setKey (nulFree slot (by simp)) slot.2)

theorem setKeys_of_keysOk {added : Slots α} :
    ∀ {slots : Slots α}, (slots ++ added).KeysOk → slots.setKeys added = slots ++ added := by
  induction added with
  | nil =>
    intro slots _
    exact (append_nil slots).symm
  | cons slot added ih =>
    intro slots keysOk
    obtain ⟨key, value⟩ := slot
    have appended : slots.setKey key value = slots ++ [(key, value)] := by
      by_cases unnamed : key = []
      · rw [unnamed]
        rfl
      · have distinct := keysOk.distinct
        rw [keys_append, keys_cons, if_neg unnamed, nodup_append] at distinct
        apply setKey_of_notMem value
        · apply keysOk.nulFree
          rw [keys_append, keys_cons, if_neg unnamed]
          simp
        · intro member
          exact distinct.2.2 key member key (by simp) rfl
    have others : (slots.setKey key value).setKeys added = slots.setKey key value ++ added := by
      rw [appended]
      apply ih
      rwa [append_assoc]
    rw [appended, append_assoc] at others
    rw [setKeys, foldl_cons, appended]
    exact others

/-! ## Removing a key -/

def removeKey (slots : Slots α) (key : Bytes) : Slots α :=
  match slots.findIndex key with
  | some slot => slots.remove slot
  | none => slots

variable {slots : Slots α}

theorem removeKey_of_findIndex {i : Nat} (found : slots.findIndex key = some i) :
    slots.removeKey key = slots.eraseIdx i := by
  rw [removeKey, found]
  exact if_pos (Int.natCast_nonneg i)

theorem removeKey_sublist (slots : Slots α) (key : Bytes) :
    List.Sublist (slots.removeKey key) slots := by
  cases found : slots.findIndex key with
  | none =>
    rw [removeKey, found]
  | some i =>
    rw [removeKey_of_findIndex found]
    exact eraseIdx_sublist slots i

theorem removeKey_of_none (absent : slots.findIndex key = none) : slots.removeKey key = slots := by
  rw [removeKey, absent]

section Keys

variable {key : Bytes} (keysOk : slots.KeysOk) (nulFree : NulFree key) (named : key ≠ [])

include keysOk nulFree named

theorem KeysOk.ne_key_of_none (absent : slots.findIndex key = none)
    {slot : Bytes × α} (member : slot ∈ slots) : slot.1 ≠ key := by
  intro same
  rcases mem_iff_getElem?.mp member with ⟨i, at_⟩
  have carried : slots.keyOf i = key := by
    rw [keyOf, at_]
    exact same
  rw [(keysOk.findIndex_eq_some_iff nulFree named i).mpr carried] at absent
  cases absent

theorem KeysOk.fst_eq_key_iff {i j : Nat} (found : slots.findIndex key = some i) {slot : Bytes × α}
    (at_ : slots[j]? = some slot) : slot.1 = key ↔ j = i := by
  have carried : slots.keyOf j = slot.1 := by
    rw [keyOf, at_]
    rfl
  rw [← carried, ← keysOk.findIndex_eq_some_iff nulFree named j, found, Option.some.injEq]
  exact eq_comm

theorem KeysOk.mem_setKey_iff (value : α) (slot : Bytes × α) :
    slot ∈ slots.setKey key value ↔ slot = (key, value) ∨ slot.1 ≠ key ∧ slot ∈ slots := by
  rw [Slots.setKey]
  cases found : slots.findIndex key with
  | none =>
    simp only [cstr_of_nulFree nulFree]
    rw [mem_append, mem_singleton]
    constructor
    · rintro (old | new)
      · exact .inr ⟨keysOk.ne_key_of_none nulFree named found old, old⟩
      · exact .inl new
    · rintro (new | ⟨_, old⟩)
      · exact .inr new
      · exact .inl old
  | some i =>
    simp only [setIndex]
    rw [mem_iff_getElem?]
    constructor
    · rintro ⟨j, at_⟩
      rw [getElem?_modify] at at_
      rcases map_eq_some_iff.mp at_ with ⟨old, there, same⟩
      have carries := keysOk.fst_eq_key_iff nulFree named found there
      by_cases here : i = j
      · rw [if_pos here] at same
        rw [← same]
        exact .inl (Prod.ext (carries.mpr here.symm) rfl)
      · rw [if_neg here] at same
        rw [← show old = slot from same]
        exact .inr ⟨fun isKey => here (carries.mp isKey).symm, mem_of_getElem? there⟩
    · rintro (rfl | ⟨other, old⟩)
      · have inside := findIndex_lt found
        have there := getElem?_eq_getElem inside
        refine ⟨i, ?_⟩
        rw [getElem?_modify, there]
        exact congrArg some ((if_pos rfl).trans (Prod.ext
          ((keysOk.fst_eq_key_iff nulFree named found there).mpr rfl) rfl))
      · rcases mem_iff_getElem?.mp old with ⟨j, there⟩
        refine ⟨j, ?_⟩
        rw [getElem?_modify, there]
        refine congrArg some (if_neg ?_)
        intro here
        exact other ((keysOk.fst_eq_key_iff nulFree named found there).mpr here.symm)

theorem KeysOk.lookup_setKey (value : α) {other : Bytes}
    (otherFree : NulFree other) (otherNamed : other ≠ []) :
    (slots.setKey key value).lookup other =
      if other = key then some value else slots.lookup other := by
  ext found
  rw [(keysOk.setKey nulFree value).lookup_eq_some_iff otherFree otherNamed,
    keysOk.mem_setKey_iff nulFree named, Prod.mk.injEq]
  split
  · rename_i same
    simp only [same, true_and, ne_eq, not_true_eq_false, false_and, or_false, Option.some.injEq]
    exact eq_comm
  · rename_i differs
    rw [keysOk.lookup_eq_some_iff otherFree otherNamed]
    simp [differs]

theorem KeysOk.mem_removeKey_iff (slot : Bytes × α) :
    slot ∈ slots.removeKey key ↔ slot.1 ≠ key ∧ slot ∈ slots := by
  cases found : slots.findIndex key with
  | none =>
    rw [removeKey_of_none found]
    exact ⟨fun old => ⟨keysOk.ne_key_of_none nulFree named found old, old⟩, fun both => both.2⟩
  | some i =>
    rw [removeKey_of_findIndex found, mem_eraseIdx_iff_getElem?]
    constructor
    · rintro ⟨j, other, there⟩
      exact ⟨fun isKey => other ((keysOk.fst_eq_key_iff nulFree named found
        there).mp isKey), mem_of_getElem? there⟩
    · rintro ⟨other, old⟩
      rcases mem_iff_getElem?.mp old with ⟨j, there⟩
      exact ⟨j, fun here => other ((keysOk.fst_eq_key_iff nulFree named
        found there).mpr here), there⟩

end Keys

end Slots

namespace Anything

instance : Inhabited Anything := ⟨null⟩

def slots : Anything → Slots Anything
  | null => []
  | array slots => slots
  | any => [([], any)]

def atKey (any : Anything) (slotname : Bytes) : Anything :=
  match any with
  | array slots => (Slots.lookup slots slotname).getD null
  | _ => null

/-- `AsCharPtr()`, where the default is no text. -/
def asCharPtr : Anything → Option Bytes
  | null => none
  | long value => some (decimalText value.toInt)
  | charPtr value => some (cstr value)
  | double text => some (cstr text)
  | voidBuf value => if value = [] then none else some (cstr value)
  | object _ => some (lit "IFAObject")
  | array _ => some (lit "AnyArrayImpl")

def charPtrText (any : Anything) : Bytes := any.asCharPtr.getD []

def assign (any : Anything) (key : Bytes) (value : Anything) : Anything :=
  array (Slots.setKey any.slots key value)

def append (any : Anything) (value : Anything) : Anything := array (Slots.append any.slots value)

def asString : Anything → Bytes
  | charPtr value => value
  | voidBuf value => value
  | any => any.charPtrText

def isDefined (any : Anything) (key : Bytes) : Bool :=
  match any with
  | array slots => Slots.isDefined slots key
  | _ => false

def contains : Anything → Bytes → Bool
  | charPtr value, k => cstr value = k
  | array slots, k => slots.any fun slot => slot.2.charPtrText = k
  | _, _ => false

theorem nulFree_charPtrText (any : Anything) : NulFree any.charPtrText := by
  cases any with
  | null => exact not_mem_nil
  | long value => exact nulFree_decimalText value.toInt
  | charPtr value => exact nulFree_cstr value
  | double text => exact nulFree_cstr text
  | voidBuf value =>
    by_cases empty : value = []
    · rw [empty]
      exact not_mem_nil
    · rw [charPtrText, asCharPtr, if_neg empty]
      exact nulFree_cstr value
  | object address => exact show NulFree (lit "IFAObject") by decide
  | array slots => exact show NulFree (lit "AnyArrayImpl") by decide

end Anything

namespace AnyImpl

def asCharPtr : AnyImpl → Option Bytes
  | long value => some (decimalText value.toInt)
  | charPtr value => some (cstr value)
  | double text => some (cstr text)
  | voidBuf value => if value = [] then none else some (cstr value)
  | object _ => some (lit "IFAObject")
  | array _ => some (lit "AnyArrayImpl")

end AnyImpl

namespace Heap

def asCharPtr (heap : Heap) (any : Handle) : Option Bytes := (heap.impl any).bind AnyImpl.asCharPtr

def slots (heap : Heap) (any : Handle) : Slots Handle :=
  match heap.impl any with
  | none => []
  | some (.array slots) => slots
  | some _ => [([], any)]

variable {heap : Heap}

theorem Unfolds.asCharPtr {tree : Anything} {any : Handle}
    (seen : Unfolds heap tree any) : heap.asCharPtr any = tree.asCharPtr := by
  unfold Heap.asCharPtr
  cases tree with
  | null =>
    cases seen
    rfl
  | array _ =>
    rcases seen with ⟨slots, found, -⟩
    rw [found]
    rfl
  | _ =>
    rw [show heap.impl any = _ from seen]
    rfl

theorem Unfolds.slots {tree : Anything} {any : Handle} (seen : Unfolds heap tree any) :
    UnfoldsSlots heap tree.slots (heap.slots any) := by
  unfold Heap.slots
  cases tree with
  | null =>
    cases seen
    rfl
  | array _ =>
    rcases seen with ⟨slots, found, inside⟩
    rw [found]
    exact inside
  | _ =>
    rw [show heap.impl any = _ from seen]
    exact ⟨any, [], rfl, seen, rfl⟩

theorem UnfoldsSlots.findIndex {trees : Slots Anything}
    {slots : Slots Handle} (seen : UnfoldsSlots heap trees slots)
    (key : Bytes) : slots.findIndex key = trees.findIndex key := by
  have names : slots.map Prod.fst = trees.map Prod.fst := by
    induction trees generalizing slots with
    | nil =>
      cases seen
      rfl
    | cons tree trees ih =>
      rcases seen with ⟨handle, rest, rfl, -, others⟩
      exact congrArg (tree.1 :: ·) (ih others)
  unfold Slots.findIndex
  split
  · rfl
  · have found := congrArg (List.findIdx? (· = cstr key)) names
    rw [findIdx?_map, findIdx?_map] at found
    exact found

private theorem UnfoldsSlots.setIndex {heap : Heap} {tree : Anything}
    {any : Handle} (value : Unfolds heap tree any) :
    ∀ {trees : Slots Anything} {slots : Slots Handle}, UnfoldsSlots heap trees slots → ∀ i : Nat,
        UnfoldsSlots heap (trees.setIndex i tree) (slots.setIndex i any)
  | [], _, seen, i => by
      cases seen
      cases i <;> rfl
  | (_, _) :: _, _, ⟨_, _, same, first, others⟩, i => by
      subst same
      cases i with
      | zero => exact ⟨_, _, rfl, value, others⟩
      | succ i => exact ⟨_, _, rfl, first, setIndex value others i⟩

private theorem UnfoldsSlots.concat {heap : Heap} {tree : Anything}
    {any : Handle} (value : Unfolds heap tree any) (key : Bytes) :
    ∀ {trees : Slots Anything} {slots : Slots Handle}, UnfoldsSlots heap trees slots →
        UnfoldsSlots heap (trees ++ [(key, tree)]) (slots ++ [(key, any)])
  | [], _, seen => by
      cases seen
      exact ⟨any, [], rfl, value, rfl⟩
  | (_, _) :: _, _, ⟨_, _, same, first, others⟩ => by
      subst same
      exact ⟨_, _, rfl, first, concat value key others⟩

theorem UnfoldsSlots.setKey {trees : Slots Anything}
    {slots : Slots Handle} (seen : UnfoldsSlots heap trees slots)
    {tree : Anything} {any : Handle} (value : Unfolds heap tree any) (key : Bytes) :
    UnfoldsSlots heap (trees.setKey key tree) (slots.setKey key any) := by
  unfold Slots.setKey
  rw [seen.findIndex]
  cases trees.findIndex key with
  | some i => exact UnfoldsSlots.setIndex value seen i
  | none => exact UnfoldsSlots.concat value (cstr key) seen

theorem UnfoldsSlots.setKeys {heap : Heap} :
    ∀ {added : Slots Anything} {handles : Slots Handle}, UnfoldsSlots heap added handles →
      ∀ {trees : Slots Anything} {slots : Slots Handle}, UnfoldsSlots heap trees slots →
        UnfoldsSlots heap (trees.setKeys added) (slots.setKeys handles)
  | [], _, same, _, _, seen => by
      cases same
      exact seen
  | (_, _) :: _, _, ⟨_, _, same, first, others⟩, _, _, seen => by
      subst same
      exact setKeys others (seen.setKey first _)

end Heap

end Coast
