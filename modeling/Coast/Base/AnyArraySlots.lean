import Coast.Base.AnyArrayImpl

/-!
# The slots that an array implementation represents

The tables of an array stay consistent while its slots change.
-/

namespace Coast

open LinearProbing InPlaceMergeSort List

namespace Slots

variable {α : Type}

/-! ## The keys of the slots -/

def keyOf (slots : Slots α) (slot : Nat) : Bytes := (slots[slot]?.map Prod.fst).getD []

variable {slots : Slots α}

theorem keyOf_of_ge {slot : Nat} (behind : slots.length ≤ slot) : keyOf slots slot = [] := by
  unfold keyOf
  rw [getElem?_eq_none behind]
  rfl

theorem lt_of_keyOf_ne {slot : Nat} (named : keyOf slots slot ≠ []) : slot < slots.length := by
  by_contra behind
  exact named (keyOf_of_ge (by omega))

@[simp]
theorem keyOf_cons_zero (key : Bytes) (value : α) (slots : Slots α) :
    keyOf ((key, value) :: slots) 0 = key := rfl

theorem mem_keys_iff {key : Bytes} :
    key ∈ slots.keys ↔ key ≠ [] ∧ ∃ slot, keyOf slots slot = key := by
  unfold keys
  rw [mem_filter]
  constructor
  · rintro ⟨member, named⟩
    obtain ⟨slot, found⟩ := mem_iff_getElem?.mp member
    rw [getElem?_map] at found
    refine ⟨by simpa using named, slot, ?_⟩
    unfold keyOf
    rw [found]
    rfl
  · rintro ⟨named, slot, same⟩
    have inside : slot < slots.length := lt_of_keyOf_ne (by rw [same]; exact named)
    refine ⟨?_, by simpa using named⟩
    unfold keyOf at same
    rw [getElem?_eq_getElem inside] at same
    exact mem_map.mpr ⟨slots[slot], getElem_mem inside, same⟩

theorem KeysOk.keyed (keysOk : slots.KeysOk) :
    AnyKeyTable.Keyed slots.keyOf (fun slot => slots.keyOf slot ≠ []) where
  nulFree slot named := keysOk.nulFree _ (mem_keys_iff.mpr ⟨named, slot, rfl⟩)
  injective := by
    have distinct := keysOk.distinct
    clear keysOk
    induction slots with
    | nil =>
      intro first second named
      exact absurd rfl named
    | cons slot slots ih =>
      obtain ⟨key, value⟩ := slot
      rw [keys_cons, nodup_append] at distinct
      obtain ⟨-, tail, apart⟩ := distinct
      have notLater : key ≠ [] → ∀ later, keyOf slots later ≠ key := by
        intro named later same
        refine apart key (by simp [named]) key ?_ rfl
        exact mem_keys_iff.mpr ⟨named, later, same⟩
      intro first second namedFirst namedSecond same
      cases first with
      | zero =>
        cases second with
        | zero => rfl
        | succ second => exact absurd same.symm (notLater namedFirst second)
      | succ first =>
        cases second with
        | zero => exact absurd same (notLater namedSecond first)
        | succ second =>
          rw [ih tail first second namedFirst namedSecond same]

theorem findIndex_lt {key : Bytes} {i : Nat}
    (found : slots.findIndex key = some i) : i < slots.length := by
  rw [findIndex] at found
  split at found
  · cases found
  · exact (findIdx?_eq_some_iff_getElem.mp found).choose

theorem findIndex_names (slots : Slots α) (key : Bytes) :
    slots.findIndex key = if cstr key = [] then none
      else (slots.map Prod.fst).findIdx? fun name => name = cstr key := by
  rw [findIndex, findIdx?_map]
  rfl

theorem KeysOk.findIndex_eq_some_iff
    (keysOk : slots.KeysOk) {key : Bytes} (nulFree : NulFree key) (named : key ≠ []) (slot : Nat) :
    slots.findIndex key = some slot ↔ slots.keyOf slot = key := by
  have carries : ∀ other, slots.findIndex key = some other → slots.keyOf other = key := by
    intro other found
    unfold findIndex at found
    rw [cstr_of_nulFree nulFree, if_neg named, findIdx?_eq_some_iff_getElem] at found
    obtain ⟨inside, same, -⟩ := found
    unfold keyOf
    rw [getElem?_eq_getElem inside]
    simpa using same
  refine ⟨carries slot, fun same => ?_⟩
  cases found : slots.findIndex key with
  | some other =>
    rw [keysOk.keyed.injective other slot
      (by rw [carries other found]; exact named)
      (by rw [same]; exact named)
      (by rw [carries other found, same])]
  | none =>
    exfalso
    unfold findIndex at found
    rw [cstr_of_nulFree nulFree, if_neg named, findIdx?_eq_none_iff] at found
    have inside : slot < slots.length := lt_of_keyOf_ne (by rw [same]; exact named)
    have differs := found slots[slot] (getElem_mem inside)
    unfold keyOf at same
    rw [getElem?_eq_getElem inside] at same
    simp at same differs
    exact differs same

variable {slots' : Slots α}

theorem KeysOk.of_sublist (keysOk : slots.KeysOk)
    (sub : slots'.keys.Sublist slots.keys) : slots'.KeysOk where
  distinct := keysOk.distinct.sublist sub
  nulFree key member := keysOk.nulFree key (sub.subset member)

theorem KeysOk.of_perm (keysOk : slots.KeysOk) (perm : slots'.Perm slots) : slots'.KeysOk := by
  have same : slots'.keys.Perm slots.keys := (perm.map Prod.fst).filter _
  exact ⟨same.nodup_iff.mpr keysOk.distinct,
    fun key member => keysOk.nulFree key (same.mem_iff.mp member)⟩

theorem KeysOk.of_keys_eq (keysOk : slots.KeysOk)
    (same : slots'.keys = slots.keys) : slots'.KeysOk := by
  refine ⟨?_, ?_⟩
  · rw [same]
    exact keysOk.distinct
  · rw [same]
    exact keysOk.nulFree

theorem keyOf_append (left right : Slots α) (slot : Nat) :
    keyOf (left ++ right) slot = if slot < left.length then keyOf left slot
      else keyOf right (slot - left.length) := by
  unfold keyOf
  split
  · rename_i inside
    rw [getElem?_append_left inside]
  · rename_i behind
    rw [getElem?_append_right (by omega)]

theorem keyOf_eraseIdx (slots : Slots α) (index slot : Nat) :
    keyOf (slots.eraseIdx index) slot =
      if slot < index then keyOf slots slot else keyOf slots (slot + 1) := by
  unfold keyOf
  rw [getElem?_eraseIdx]
  split <;> rfl

variable [Inhabited α]

theorem keyOf_replicate (count slot : Nat) :
    keyOf (List.replicate count (AnyKeyAssoc.empty : AnyKeyAssoc α)) slot = [] := by
  unfold keyOf
  rw [getElem?_replicate]
  split <;> rfl

theorem keys_replicate (count : Nat) :
    keys (List.replicate count (AnyKeyAssoc.empty : AnyKeyAssoc α)) = [] := by
  unfold keys
  rw [map_replicate, filter_eq_nil_iff]
  intro key member
  simp [(mem_replicate.mp member).2, AnyKeyAssoc.empty]

theorem keyOf_grow (slots : Slots α) (count : Nat) :
    keyOf (slots ++ List.replicate count AnyKeyAssoc.empty) = keyOf slots := by
  funext slot
  rw [keyOf_append, keyOf_replicate]
  split
  · rfl
  · rw [keyOf_of_ge (by omega)]

omit [Inhabited α] in
theorem keyOf_append_single (slots : Slots α) (key : Bytes) (value : α) (slot : Nat) :
    keyOf (slots ++ [(key, value)]) slot =
      if slot = slots.length then key else keyOf slots slot := by
  rw [keyOf_append]
  by_cases here : slot = slots.length
  · rw [if_neg (by omega), if_pos here, here, Nat.sub_self, keyOf_cons_zero]
  · rw [if_neg here]
    split
    · rfl
    · rw [keyOf_of_ge (by simp; omega), keyOf_of_ge (by omega)]

omit [Inhabited α] in
theorem map_fst_setValue (slot : Nat) (write : α → α) (slots : Slots α) :
    (setValue slot write slots).map Prod.fst = slots.map Prod.fst := by
  unfold setValue
  apply ext_getElem?
  intro i
  rw [getElem?_map, getElem?_map, getElem?_modify]
  cases slots[i]? with
  | none => rfl
  | some assoc =>
    simp only [Option.map_eq_map, Option.map_some]
    split <;> rfl

omit [Inhabited α] in
theorem keyOf_of_map_fst {slots slots' : Slots α}
    (same : slots'.map Prod.fst = slots.map Prod.fst) :
    keyOf slots' = keyOf slots := by
  funext slot
  unfold keyOf
  rw [← getElem?_map, ← getElem?_map, same]

omit [Inhabited α] in
theorem keys_of_map_fst {slots slots' : Slots α} (same : slots'.map Prod.fst = slots.map Prod.fst) :
    slots'.keys = slots.keys := by
  unfold keys
  rw [same]

theorem keyOf_insertReserve (slots : Slots α) {pos : Nat}
    (inside : pos ≤ slots.length) (size slot : Nat) :
    keyOf (insertReserve pos size slots) slot = if slot < pos then keyOf slots slot
      else if slot < pos + size then []
      else keyOf slots (slot - size) := by
  unfold insertReserve
  rw [append_assoc, keyOf_append, keyOf_append, length_take,
    Nat.min_eq_left inside, length_replicate, keyOf_replicate]
  split
  · rename_i before
    unfold keyOf
    rw [getElem?_take, if_pos before]
  · split
    · rw [if_pos (by omega)]
    · rw [if_neg (by omega)]
      unfold keyOf
      rw [getElem?_drop]
      congr 3
      omega

theorem keys_insertReserve (pos size : Nat) (slots : Slots α) :
    keys (insertReserve pos size slots) = slots.keys := by
  unfold insertReserve
  rw [keys_append, keys_append, keys_replicate, append_nil, ← keys_append, take_append_drop]

end Slots

/-! ## Consistent tables -/

namespace AnyArrayImpl

variable {α : Type} [Inhabited α] {impl : AnyArrayImpl α}

theorem slots_length : impl.slots.length = impl.fInd.fSize := length_map ..

theorem keyAt_eq : impl.keyAt = impl.slots.keyOf := by
  funext slot
  unfold keyAt slots Slots.keyOf AnyIndTable.constAt
  rw [getElem?_map, Option.map_map]
  rfl

/-- The places of the slots are in the buffers, the other ones are clean. -/
structure Sound (impl : AnyArrayImpl α) : Prop where
  buffers : impl.fContents.length = impl.fCapacity
  whole : arrayBufSize ∣ impl.fCapacity
  positive : 0 < impl.fCapacity
  ind : impl.fInd.Ok impl.fCapacity
  clean : ∀ place, place ∉ impl.fInd.fIndexTable → impl.assocAt place = .empty

def KeysFound (fKeys : Option AnyKeyTable) (keyAt : Nat → Bytes) : Prop :=
  match fKeys with
  | none => ∀ slot, keyAt slot = []
  | some keys => keys.Ok keyAt (fun slot => keyAt slot ≠ [])

/-- The tables agree with the slots. -/
structure Good (impl : AnyArrayImpl α) : Prop extends Sound impl where
  size : impl.fInd.fSize = impl.fSize
  keysOk : impl.slots.KeysOk
  keys : KeysFound impl.fKeys impl.slots.keyOf

theorem Good.length_slots (good : impl.Good) : impl.slots.length = impl.fSize := by
  rw [slots_length, good.size]

theorem le_adjustCapacity (cap : Nat) : cap ≤ adjustCapacity cap := by
  unfold adjustCapacity arrayBufSize
  omega

theorem dvd_adjustCapacity (cap : Nat) : arrayBufSize ∣ adjustCapacity cap := Nat.dvd_mul_left _ _

theorem empty_good : (empty : AnyArrayImpl α).Good where
  buffers := length_replicate
  whole := dvd_adjustCapacity 4
  positive := Nat.lt_of_lt_of_le (by decide) (le_adjustCapacity 4)
  ind := AnyIndTable.init_ok (Nat.lt_of_lt_of_le (by decide) (le_adjustCapacity 4)) _
  clean place _ := by
    unfold assocAt empty
    rw [getElem?_replicate]
    split <;> rfl
  size := rfl
  keysOk := ⟨nodup_nil, fun key member => nomatch member⟩
  keys slot := rfl

@[simp]
theorem slots_empty : (empty : AnyArrayImpl α).slots = [] := rfl

variable (sound : impl.Sound)
include sound

theorem Sound.setContent {slot place : Nat}
    (found : impl.fInd.fIndexTable[slot]? = some place) (write : AnyKeyAssoc α → AnyKeyAssoc α) :
    impl.setContent place write =
        some { impl with fContents := impl.fContents.modify place write } ∧
      Sound { impl with fContents := impl.fContents.modify place write } ∧
      slots { impl with fContents := impl.fContents.modify place write } =
        impl.slots.modify slot write := by
  have member := mem_iff_getElem?.mpr ⟨slot, found⟩
  have inside : place < impl.fContents.length := by
    rw [sound.buffers]
    exact sound.ind.inside place member
  have written : ∀ other, assocAt { impl with fContents := impl.fContents.modify place write }
        other = if place = other then write (impl.assocAt other) else impl.assocAt other := by
    intro other
    unfold assocAt
    rw [getElem?_modify]
    by_cases here : place = other
    · subst here
      rw [getElem?_eq_getElem inside]
      simp
    · simp [here]
  refine ⟨by rw [AnyArrayImpl.setContent, if_pos inside],
    ⟨?_, sound.whole, sound.positive, sound.ind, ?_⟩, ?_⟩
  · rw [length_modify]
    exact sound.buffers
  · intro other unused
    have apart : place ≠ other := fun same => unused (same ▸ member)
    rw [written, if_neg apart]
    exact sound.clean other unused
  · apply ext_getElem?
    intro i
    unfold slots
    rw [getElem?_modify, getElem?_map, getElem?_map]
    cases there : impl.fInd.fIndexTable[i]? with
    | none => rfl
    | some other =>
      simp only [Option.map_some, Option.map_eq_map, written]
      by_cases here : slot = i
      · subst here
        rw [found] at there
        cases there
        rw [if_pos rfl, if_pos rfl]
      · have apart : place ≠ other := by
          rintro rfl
          have early := (List.getElem?_eq_some_iff.mp found).1
          have late := (List.getElem?_eq_some_iff.mp there).1
          have equal : impl.fInd.fIndexTable[slot] = impl.fInd.fIndexTable[i] := by
            rw [(List.getElem?_eq_some_iff.mp found).2, (List.getElem?_eq_some_iff.mp there).2]
          exact here (sound.ind.nodupUsed.getElem_inj_iff.mp equal)
        rw [if_neg apart, if_neg here]

theorem Sound.expand (newsize : Nat) :
    (impl.expand newsize).Sound ∧ newsize ≤ (impl.expand newsize).fCapacity ∧
      impl.fCapacity ≤ (impl.expand newsize).fCapacity ∧
      (newsize ≤ impl.fCapacity → newsize < (impl.expand newsize).fCapacity) ∧
      (impl.expand newsize).slots = impl.slots := by
  have positive := sound.positive
  have capacity : newsize ≤ (impl.expand newsize).fCapacity ∧
      impl.fCapacity * 2 ≤ (impl.expand newsize).fCapacity := by
    unfold AnyArrayImpl.expand
    by_cases far : impl.fCapacity * 2 < newsize
    · have enough := le_adjustCapacity newsize
      simp only [if_pos far]
      omega
    · have enough := le_adjustCapacity (impl.fCapacity * 2)
      simp only [if_neg far]
      omega
  have whole : arrayBufSize ∣ (impl.expand newsize).fCapacity := by
    unfold AnyArrayImpl.expand
    by_cases far : impl.fCapacity * 2 < newsize
    · simp only [if_pos far]
      exact dvd_adjustCapacity _
    · simp only [if_neg far]
      exact dvd_adjustCapacity _
  have same : (impl.expand newsize).assocAt = impl.assocAt := by
    funext place
    unfold assocAt AnyArrayImpl.expand
    by_cases old : place < impl.fContents.length
    · rw [getElem?_append_left old]
    · rw [getElem?_append_right (by omega), getElem?_replicate, getElem?_eq_none (by omega)]
      by_cases added : place - impl.fContents.length <
          ((if impl.fCapacity * 2 < newsize then adjustCapacity newsize
            else adjustCapacity (impl.fCapacity * 2)) / arrayBufSize -
              impl.fContents.length / arrayBufSize) * arrayBufSize
      · rw [if_pos added]
        rfl
      · rw [if_neg added]
  refine ⟨⟨?_, whole, by omega, sound.ind.mono (by omega), ?_⟩, capacity.1, by omega, by omega, ?_⟩
  · have length : (impl.expand newsize).fContents.length = impl.fContents.length +
          ((impl.expand newsize).fCapacity / arrayBufSize -
            impl.fContents.length / arrayBufSize) * arrayBufSize := by
      unfold AnyArrayImpl.expand
      rw [length_append, length_replicate]
    obtain ⟨bufs, oldWhole⟩ := sound.whole
    obtain ⟨newBufs, newWhole⟩ := whole
    have buffers := sound.buffers
    rw [length, buffers, newWhole, oldWhole]
    rw [newWhole, oldWhole] at capacity
    unfold arrayBufSize at capacity ⊢
    omega
  · intro place unused
    rw [same]
    exact sound.clean place unused
  · unfold slots
    rw [same]
    rfl

theorem Sound.extend {slot : Nat} (inside : slot < impl.fCapacity) :
    ∃ place : Nat, (impl.fInd.at_ slot).2 = some place ∧
      Sound { impl with fInd := (impl.fInd.at_ slot).1 } ∧
      slots { impl with fInd := (impl.fInd.at_ slot).1 } = impl.slots ++
        List.replicate (slot + 1 - impl.fInd.fSize) AnyKeyAssoc.empty ∧
      (impl.fInd.at_ slot).1.fIndexTable[slot]? = some place := by
  obtain ⟨moved, index, length, indOk, result⟩ := sound.ind.at_ (Nat.le_refl _) inside
  have many : slot < (impl.fInd.at_ slot).1.fIndexTable.length := by
    rw [index, length_append, length]
    unfold AnyIndTable.fSize
    omega
  rw [getElem?_eq_getElem many] at result
  refine ⟨_, result, ?_, ?_, getElem?_eq_getElem many⟩
  · refine ⟨sound.buffers, sound.whole, sound.positive, indOk,
      fun place unused => sound.clean place fun old => unused ?_⟩
    rw [index]
    exact mem_append_left _ old
  · have unused : ∀ place ∈ moved, impl.assocAt place = .empty := by
      intro place member
      refine sound.clean place fun old => ?_
      have distinct := indOk.nodupUsed
      rw [index] at distinct
      exact (nodup_append.mp distinct).2.2 place old place member rfl
    have appended : slots { impl with fInd := (impl.fInd.at_ slot).1 } =
        impl.slots ++ moved.map impl.assocAt := by
      unfold slots
      rw [index, map_append]
      rfl
    rw [appended, ← length]
    congr 1
    rw [eq_replicate_iff]
    refine ⟨length_map .., ?_⟩
    intro assoc member
    obtain ⟨place, isMoved, rfl⟩ := mem_map.mp member
    exact unused place isMoved

theorem Sound.address (fits : impl.fSize ≤ impl.fInd.fSize) (slot : Nat) :
    ∃ (impl' : AnyArrayImpl α) (place : Nat),
      impl.address slot = (impl', some place) ∧ impl'.Sound ∧
      impl'.fKeys = impl.fKeys ∧
      impl'.slots = impl.slots ++ List.replicate (slot + 1 - impl.fInd.fSize) AnyKeyAssoc.empty ∧
      impl'.fInd.fIndexTable[slot]? = some place ∧
      impl'.fSize = max impl.fSize (slot + 1) ∧
      (impl.fSize < impl.fCapacity → slot ≤ impl.fSize → impl'.fSize < impl'.fCapacity) := by
  -- the array with enough buffers
  have grown : ∃ big : AnyArrayImpl α, big.Sound ∧
      impl.address slot = ({ big with fInd := (big.fInd.at_ slot).1 }, (big.fInd.at_ slot).2) ∧
      big.fInd = impl.fInd ∧ big.fKeys = impl.fKeys ∧
      big.slots = impl.slots ∧ slot < big.fCapacity ∧
      big.fSize = max impl.fSize (slot + 1) ∧
      (impl.fSize < impl.fCapacity → slot ≤ impl.fSize → big.fSize < big.fCapacity) := by
    have sized : Sound ({ impl with fSize := slot + 1 } : AnyArrayImpl α) :=
      ⟨sound.buffers, sound.whole, sound.positive, sound.ind, sound.clean⟩
    have few := sound.ind.fSize_le
    by_cases new : impl.fSize < slot + 1
    · by_cases full : impl.fCapacity ≤ slot + 1
      · obtain ⟨bigSound, enough, -, roomy, same⟩ := sized.expand (slot + 1)
        refine ⟨({ impl with fSize := slot + 1 } : AnyArrayImpl α).expand
            (slot + 1), bigSound,
          ?_, rfl, rfl, same, enough, ?_, ?_⟩
        · unfold AnyArrayImpl.address
          simp only [if_pos new, if_pos full]
        · change slot + 1 = _
          omega
        · intro room next
          have fits : slot + 1 ≤ impl.fCapacity := by omega
          exact roomy fits
      · refine ⟨{ impl with fSize := slot + 1 }, sized, ?_, rfl, rfl, rfl, ?_, ?_, ?_⟩
        · unfold AnyArrayImpl.address
          simp only [if_pos new, if_neg full]
        · change slot < impl.fCapacity
          omega
        · change slot + 1 = _
          omega
        · intro _ _
          change slot + 1 < impl.fCapacity
          omega
    · refine ⟨impl, sound, ?_, rfl, rfl, rfl, by omega, by omega, fun room _ => room⟩
      unfold AnyArrayImpl.address
      simp only [if_neg new]
  obtain ⟨big, bigSound, addressed, sameInd, sameKeys, sameSlots, inside, size, roomy⟩ := grown
  obtain ⟨place, result, extended, appended, found⟩ := bigSound.extend inside
  refine ⟨{ big with fInd := (big.fInd.at_ slot).1 }, place,
    by rw [addressed, result], extended, sameKeys, ?_, found, size, roomy⟩
  rw [appended, sameSlots, sameInd]

theorem Sound.at_ (fits : impl.fSize ≤ impl.fInd.fSize) (slot : Nat) (write : α → α) :
    ∃ impl' : AnyArrayImpl α, impl.at_ slot write = some impl' ∧
      impl'.Sound ∧ impl'.fKeys = impl.fKeys ∧
      impl'.slots = Slots.at_ slot write impl.slots ∧
      impl'.fSize = max impl.fSize (slot + 1) ∧
      (impl.fSize < impl.fCapacity → slot ≤ impl.fSize → impl'.fSize < impl'.fCapacity) := by
  obtain ⟨big, place, addressed, bigSound, sameKeys, grown, found, size,
    roomy⟩ := sound.address fits slot
  obtain ⟨written, writtenSound, content⟩ := bigSound.setContent found (setValue write)
  refine ⟨_, ?_, writtenSound, sameKeys, ?_, size, roomy⟩
  · unfold AnyArrayImpl.at_
    rw [addressed]
    exact written
  · unfold Slots.at_
    rw [content, grown, slots_length]
    rfl

/-- The places may be in any order. -/
theorem Sound.reorder {index : List Nat} (same : index.Perm impl.fInd.fIndexTable) :
    Sound { impl with fInd := { impl.fInd with fIndexTable := index } } where
  buffers := sound.buffers
  whole := sound.whole
  positive := sound.positive
  ind := sound.ind.reorder same
  clean place unused := sound.clean place fun old => unused (same.mem_iff.mpr old)

end AnyArrayImpl

end Coast
