import Coast.Base.AnyArraySlots

/-!
# The operations of the array implementation

Every operation keeps the tables of an array consistent, and does to its
slots what it does to a plain list.
-/

namespace Coast

open LinearProbing InPlaceMergeSort List Nat

namespace AnyArrayImpl

variable {α : Type} [Inhabited α] {impl : AnyArrayImpl α}

theorem Good.at_ (good : impl.Good) (slot : Nat) (write : α → α) :
    ∃ impl', impl.at_ slot write = some impl' ∧ impl'.Good ∧
      impl'.slots = Slots.at_ slot write impl.slots ∧
      impl'.fSize = max impl.fSize (slot + 1) := by
  obtain ⟨impl', done, sound, sameKeys, result, size, -⟩ :=
    good.toSound.at_ (le_of_eq good.size.symm) slot write
  refine ⟨impl', done, ⟨sound, ?_, ?_, ?_⟩, result, size⟩
  · have length := congrArg List.length result
    rw [slots_length] at length
    rw [length, size]
    unfold Slots.at_ Slots.setValue
    rw [length_modify, length_append, length_replicate, good.length_slots]
    omega
  · rw [result]
    refine good.keysOk.of_keys_eq ?_
    unfold Slots.at_
    rw [Slots.keys_of_map_fst (Slots.map_fst_setValue _ _ _),
      Slots.keys_append, Slots.keys_replicate, append_nil]
  · rw [result, sameKeys]
    unfold Slots.at_
    rw [Slots.keyOf_of_map_fst (Slots.map_fst_setValue _ _ _), Slots.keyOf_grow]
    exact good.keys

omit [Inhabited α] in
theorem KeysFound.at_eq {keys : AnyKeyTable} {slots : Slots α}
    (found : KeysFound (some keys) slots.keyOf) (keysOk : slots.KeysOk)
    {key : Bytes} (nulFree : NulFree key) :
    (∀ slot, slots.keyOf slot = key → key ≠ [] → keys.at_ slots.keyOf key 0 0 = some slot) ∧
    ((∀ slot, slots.keyOf slot = key → key = []) → keys.at_ slots.keyOf key 0 0 = none) := by
  have ok : keys.Ok slots.keyOf (fun slot => slots.keyOf slot ≠ []) := found
  obtain ⟨present, absent⟩ := ok.at_key keysOk.keyed nulFree
  constructor
  · intro slot same named
    exact present slot (by rw [same]; exact named) same
  · intro nowhere
    refine absent fun slot named same => named ?_
    rw [same]
    exact nowhere slot same

theorem Good.findIndex_eq (good : impl.Good) {key : Bytes} (nulFree : NulFree key) :
    impl.findIndex key 0 0 = impl.slots.findIndex key := by
  have keys := good.keys
  have unnamed : (∀ slot, impl.slots.keyOf slot = key → key = []) →
      impl.slots.findIndex key = none := by
    intro nowhere
    apply Slots.findIndex_eq_none
    rw [cstr_of_nulFree nulFree]
    intro member
    obtain ⟨named, slot, same⟩ := Slots.mem_keys_iff.mp member
    exact named (nowhere slot same)
  unfold findIndex
  cases table : impl.fKeys with
  | none =>
    rw [table] at keys
    have noKey : ∀ slot, impl.slots.keyOf slot = [] := keys
    rw [unnamed fun slot same => same.symm.trans (noKey slot)]
    rfl
  | some t =>
    rw [table] at keys
    obtain ⟨present, absent⟩ := keys.at_eq good.keysOk nulFree
    rw [Option.bind_some, keyAt_eq]
    by_cases nowhere : ∀ slot, impl.slots.keyOf slot = key → key = []
    · rw [absent nowhere, unnamed nowhere]
    · simp only [not_forall] at nowhere
      obtain ⟨slot, same, named⟩ := nowhere
      rw [present slot same named]
      exact ((good.keysOk.findIndex_eq_some_iff nulFree named slot).mpr same).symm

theorem Good.newKeyTable (good : impl.Good) {key : Bytes}
    (nulFree : NulFree key) (new : key ∉ impl.slots.keys) :
    ∃ keys : AnyKeyTable, impl.lookKey key = (keys, none) ∧
      keys.Ok impl.slots.keyOf (fun slot => impl.slots.keyOf slot ≠ []) := by
  have found := good.keys
  cases table : impl.fKeys with
  | none =>
    rw [table] at found
    refine ⟨_, by rw [lookKey, table], (AnyKeyTable.initTable_ok _ _).1.congr ?_ (fun _ _ => rfl)⟩
    intro slot
    simp [found slot]
  | some keys =>
    rw [table] at found
    refine ⟨keys, ?_, found⟩
    obtain ⟨-, absent⟩ := found.at_eq good.keysOk nulFree
    rw [lookKey, table, keyAt_eq]
    refine Prod.ext rfl (absent fun slot same => ?_)
    by_contra named
    exact new (Slots.mem_keys_iff.mpr ⟨named, slot, same⟩)

theorem Good.appendKey (good : impl.Good) {keys : AnyKeyTable}
    (ok : keys.Ok impl.slots.keyOf (fun slot => impl.slots.keyOf slot ≠ [])) {key : Option Bytes}
    (fresh : ∀ text, key = some text →
      NulFree text ∧ text ≠ [] ∧ text ∉ impl.slots.keys) (value : α) :
    ∃ keys', keys.append impl.keyAt impl.fSize key impl.fSize = some keys' ∧
      KeysFound (some keys') (Slots.keyOf (impl.slots ++ [(key.getD [], value)])) := by
  have length := good.length_slots
  cases key with
  | none =>
    refine ⟨keys, rfl, ok.congr (fun slot => ?_) (fun slot named => ?_)⟩
    · rw [Slots.keyOf_append_single]
      split
      · rename_i here
        rw [Slots.keyOf_of_ge (by omega)]
        rfl
      · rfl
    · have inside := Slots.lt_of_keyOf_ne named
      rw [Slots.keyOf_append_single, if_neg (by omega)]
  | some text =>
    obtain ⟨nulFree, named, new⟩ := fresh text rfl
    have inside : ∀ slot, impl.slots.keyOf slot ≠ [] → slot < impl.fSize := by
      intro slot isNamed
      rw [← length]
      exact Slots.lt_of_keyOf_ne isNamed
    obtain ⟨keys', appended, ok'⟩ := ok.append good.keysOk.keyed
      impl.fSize impl.fSize nulFree inside
      (fun isNamed => absurd (inside _ isNamed) (by omega))
      (fun other isNamed same => new (Slots.mem_keys_iff.mpr ⟨named, other, same⟩))
      (Slots.keyOf (impl.slots ++ [(text, value)]))
      (by rw [Slots.keyOf_append_single, if_pos length.symm])
      (fun other isNamed => by
        have less := inside other isNamed
        rw [Slots.keyOf_append_single, if_neg (by omega)])
    refine ⟨keys', by rw [keyAt_eq]; exact appended, ok'.congr (fun slot => ?_) (fun _ _ => rfl)⟩
    change _ ↔ Slots.keyOf (impl.slots ++ [(text, value)]) slot ≠ []
    rw [Slots.keyOf_append_single, length]
    by_cases here : slot = impl.fSize
    · rw [if_pos here]
      exact ⟨fun _ => named, fun _ => Or.inr here⟩
    · rw [if_neg here]
      exact ⟨fun isNamed => isNamed.resolve_right here, Or.inl⟩

private theorem modify_last {β : Type} (items : List β) (item : β) (f : β → β) :
    (items ++ [item]).modify items.length f = items ++ [f item] := by
  induction items with
  | nil => rfl
  | cons first items ih =>
    rw [cons_append, length_cons, modify_succ_cons, ih]
    rfl

section

variable (good : impl.Good)
include good

theorem Good.enterKey (room : impl.fSize < impl.fCapacity)
    (keys : AnyKeyTable) (key : Bytes) :
    ∃ (place : Nat) (mid : AnyArrayImpl α), (impl.fInd.at_ impl.fSize).2 = some place ∧
      setContent place (setKey key) { impl with
        fKeys := some keys
        fInd := (impl.fInd.at_ impl.fSize).1 } = some mid ∧
      mid.Sound ∧ mid.slots = impl.slots ++ [(key, default)] ∧
      mid.fKeys = some keys ∧ mid.fSize = impl.fSize ∧
      mid.fCapacity = impl.fCapacity := by
  obtain ⟨place, placed, sound, grown, found⟩ := good.toSound.extend room
  have keyed : Sound { impl with
      fKeys := some keys, fInd := (impl.fInd.at_ impl.fSize).1 } :=
    ⟨sound.buffers, sound.whole, sound.positive, sound.ind, sound.clean⟩
  obtain ⟨written, midSound, content⟩ := keyed.setContent found (setKey key)
  refine ⟨place, _, placed, written, midSound, ?_, rfl, rfl, rfl⟩
  rw [content]
  change List.modify (slots { impl with
    fInd := (impl.fInd.at_ impl.fSize).1 }) _ _ = _
  have single : impl.fSize + 1 - impl.fInd.fSize = 1 := by
    rw [good.size]
    omega
  rw [grown, single, replicate_one, ← good.length_slots, modify_last]
  rfl

theorem Good.atKey_new (room : impl.fSize < impl.fCapacity) (key : Option Bytes)
    (fresh : ∀ text, key = some text →
      cstr text ≠ [] ∧ cstr text ∉ impl.slots.keys) (write : α → α) :
    ∃ impl', impl.atKey key write = some impl' ∧ impl'.Good ∧
      impl'.slots = impl.slots ++ [((key.map cstr).getD [], write default)] ∧
      impl'.fSize < impl'.fCapacity := by
  set text := key.map cstr with textDef
  have freshText : ∀ word, text = some word →
      NulFree word ∧ word ≠ [] ∧ word ∉ impl.slots.keys := by
    intro word same
    rw [textDef] at same
    obtain ⟨original, given, rfl⟩ := Option.map_eq_some_iff.mp same
    exact ⟨nulFree_cstr original, fresh original given⟩
  have newText : NulFree (text.getD []) ∧ text.getD [] ∉ impl.slots.keys := by
    cases given : text with
    | none =>
      refine ⟨fun member => (nomatch member), fun member => ?_⟩
      exact (Slots.mem_keys_iff.mp member).1 rfl
    | some word =>
      exact ⟨(freshText word given).1, (freshText word given).2.2⟩
  obtain ⟨keys, looked, keysOk⟩ := good.newKeyTable newText.1 newText.2
  obtain ⟨keys', appended, found⟩ := good.appendKey keysOk freshText (write default)
  obtain ⟨place, mid, placed, entered, midSound, midSlots, midKeys, midSize,
    midCapacity⟩ := good.enterKey room keys' (text.getD [])
  have length := good.length_slots
  have midLength : mid.fInd.fSize = impl.fSize + 1 := by
    rw [← slots_length, midSlots, length_append, length]
    rfl
  obtain ⟨impl', done, sound, sameKeys, result, size, roomy⟩ :=
    midSound.at_ (by omega) impl.fSize write
  have slots' : impl'.slots = impl.slots ++ [(text.getD [], write default)] := by
    rw [result, midSlots]
    unfold Slots.at_ Slots.setValue
    have full : impl.fSize + 1 - (impl.slots ++ [(text.getD [], (default : α))]).length = 0 := by
      rw [length_append, length]
      exact Nat.sub_self _
    rw [full, replicate_zero, append_nil, ← length, modify_last]
  refine ⟨impl', ?_, ⟨sound, ?_, ?_, ?_⟩, slots', roomy (by omega) (by omega)⟩
  · unfold AnyArrayImpl.atKey
    simp only [← textDef, looked, appended, Option.bind_some, placed, entered, midSize, done]
  · rw [← slots_length, slots', length_append, length, size, midSize]
    simp
  · rw [slots']
    have keysAfter : Slots.keys (impl.slots ++ [(text.getD [], write default)]) =
          impl.slots.keys ++ if text.getD [] = [] then [] else
            [text.getD []] := by
      rw [Slots.keys_append, Slots.keys_cons, Slots.keys_nil, append_nil]
    refine ⟨?_, ?_⟩
    · rw [keysAfter]
      split
      · rw [append_nil]
        exact good.keysOk.distinct
      · rw [nodup_append]
        refine ⟨good.keysOk.distinct, nodup_singleton _, ?_⟩
        intro old isOld new isNew same
        rw [mem_singleton.mp isNew] at same
        exact newText.2 (same ▸ isOld)
    · rw [keysAfter]
      intro word member
      rcases mem_append.mp member with old | new
      · exact good.keysOk.nulFree word old
      · split at new
        · cases new
        · rw [mem_singleton.mp new]
          exact newText.1
  · rw [sameKeys, midKeys, slots']
    exact found

theorem Good.atKey_known {key : Bytes} {slot : Nat}
    (carries : impl.slots.findIndex key = some slot)
    (straight : impl.fInd.fIndexTable[slot]? = some slot) (write : α → α) :
    ∃ impl', impl.atKey (some key) write = some impl' ∧ impl'.Good ∧
      impl'.slots = Slots.setValue slot write impl.slots := by
  have named : cstr key ≠ [] := by
    intro unnamed
    unfold Slots.findIndex at carries
    rw [if_pos unnamed] at carries
    cases carries
  have sameFind : impl.slots.findIndex (cstr key) = some slot := by
    unfold Slots.findIndex at carries ⊢
    rwa [cstr_of_nulFree (nulFree_cstr key)]
  have here := (good.keysOk.findIndex_eq_some_iff (nulFree_cstr key) named slot).mp sameFind
  obtain ⟨written, sound, content⟩ := good.toSound.setContent straight (setValue write)
  have sameNames := Slots.map_fst_setValue slot write impl.slots
  refine ⟨_, ?_, ⟨sound, good.size, ?_, ?_⟩, content⟩
  · have found := good.keys
    cases table : impl.fKeys with
    | none =>
      rw [table] at found
      have unnamed : impl.slots.keyOf slot = [] := found slot
      exact absurd (here.symm.trans unnamed) named
    | some keys =>
      rw [table] at found
      have looked := (found.at_eq good.keysOk (nulFree_cstr key)).1 slot here named
      unfold AnyArrayImpl.atKey
      rw [← keyAt_eq] at looked
      simp only [Option.map_some, Option.getD_some, lookKey, table, looked]
      rw [← table]
      exact written
  · rw [content]
    exact good.keysOk.of_keys_eq (Slots.keys_of_map_fst sameNames)
  · rw [content, show List.modify impl.slots slot (setValue write) =
      Slots.setValue slot write impl.slots from rfl,
      Slots.keyOf_of_map_fst sameNames]
    exact good.keys

/-! ## Removing and inserting slots -/

/-- The slots behind the removed one move up. -/
theorem Good.remove (slot : Nat) (inside : slot < impl.fSize) :
    ∃ impl', impl.remove slot = some impl' ∧ impl'.Good ∧ impl'.slots = impl.slots.eraseIdx slot ∧
      impl'.fSize = impl.fSize - 1 := by
  have indInside : slot < impl.fInd.fIndexTable.length := by
    rw [← good.size] at inside
    exact inside
  have found := getElem?_eq_getElem indInside
  set place := impl.fInd.fIndexTable[slot] with placeDef
  obtain ⟨written, sound, content⟩ := good.toSound.setContent found (fun _ => AnyKeyAssoc.empty)
  set mid : AnyArrayImpl α := { impl with
    fContents := impl.fContents.modify place fun _ => .empty } with midDef
  have indOk := good.ind.remove slot indInside
  have cleared : mid.assocAt place = .empty := by
    have there := congrArg (fun slots => slots[slot]?) content
    unfold slots at there
    rw [getElem?_map, getElem?_modify, getElem?_map] at there
    simp only [show mid.fInd = impl.fInd from rfl, found, Option.map_some, if_true] at there
    exact Option.some.inj there
  have result : slots { mid with
      fInd := mid.fInd.remove slot
      fKeys := mid.fKeys.map (·.updateRemoved slot)
      fSize := mid.fSize - 1 } = impl.slots.eraseIdx slot := by
    have erased : slots { mid with
        fInd := mid.fInd.remove slot
        fKeys := mid.fKeys.map (·.updateRemoved slot)
        fSize := mid.fSize - 1 } = mid.slots.eraseIdx slot := by
      unfold slots
      rw [eraseIdx_map]
      rfl
    rw [erased, content, eraseIdx_modify_of_eq]
  refine ⟨{ mid with
      fInd := mid.fInd.remove slot
      fKeys := mid.fKeys.map (·.updateRemoved slot)
      fSize := mid.fSize - 1 }, ?_,
    ⟨⟨sound.buffers, sound.whole, sound.positive, indOk, ?_⟩, ?_, ?_, ?_⟩,
    result, rfl⟩
  · unfold AnyArrayImpl.remove AnyIndTable.constAt
    rw [if_pos ⟨by omega, by omega⟩]
    simp only [Int.toNat_natCast, found, Option.bind_some, written]
    rfl
  · intro other unused
    by_cases here : other = place
    · rw [here]
      exact cleared
    · refine sound.clean other fun old => unused ?_
      have moved := (getElem_cons_eraseIdx_perm indInside).mem_iff.mpr old
      exact (mem_cons.mp moved).resolve_left here
  · change (impl.fInd.fIndexTable.eraseIdx slot).length = impl.fSize - 1
    rw [length_eraseIdx, if_pos indInside, ← good.size]
    rfl
  · rw [result]
    refine good.keysOk.of_sublist ?_
    exact ((eraseIdx_sublist _ _).map Prod.fst).filter _
  · rw [result]
    have keys := good.keys
    change KeysFound (impl.fKeys.map _) _
    cases table : impl.fKeys with
    | none =>
      rw [table] at keys
      have unnamed : ∀ other, impl.slots.keyOf other = [] := keys
      intro other
      rw [Slots.keyOf_eraseIdx, unnamed, unnamed, ite_self]
    | some t =>
      rw [table] at keys
      have ok : t.Ok impl.slots.keyOf (fun other => impl.slots.keyOf other ≠ []) := keys
      refine ok.updateRemoved slot (fun other before => ?_) (fun other after => ?_)
      · rw [Slots.keyOf_eraseIdx, if_pos before]
        exact ⟨Iff.rfl, rfl⟩
      · rw [Slots.keyOf_eraseIdx, if_neg (by omega)]
        exact ⟨Iff.rfl, rfl⟩

end

theorem Good.eraseLoop (first count : Nat) :
    ∀ {impl : AnyArrayImpl α}, impl.Good → first + count ≤ impl.fSize →
      ∃ impl', eraseLoop first count impl = some impl' ∧ impl'.Good ∧
        impl'.slots = impl.slots.take first ++ impl.slots.drop (first + count) := by
  induction count with
  | zero =>
    intro impl good _
    refine ⟨impl, rfl, good, ?_⟩
    rw [add_zero, take_append_drop]
  | succ count ih =>
    intro impl good inside
    obtain ⟨mid, removed, midGood, midSlots, midSize⟩ := good.remove (first + count) (by omega)
    obtain ⟨impl', erased, good', slots'⟩ := ih midGood (by omega)
    refine ⟨impl', ?_, good', ?_⟩
    · rw [AnyArrayImpl.eraseLoop, removed]
      exact erased
    · have length := good.length_slots
      rw [slots', midSlots, eraseIdx_eq_take_drop_succ,
        take_append_of_le_length (by rw [length_take]; omega),
        take_take, min_eq_left (by omega),
        drop_append_of_le_length (by rw [length_take]; omega),
        drop_take, Nat.sub_self, take_zero, nil_append,
        add_assoc]

theorem Good.erase (good : impl.Good) (first last : Int) :
    ∃ impl', impl.erase first last = some impl' ∧ impl'.Good ∧
      impl'.slots = Slots.erase first last impl.slots := by
  unfold AnyArrayImpl.erase Slots.erase
  rw [good.length_slots]
  by_cases range : 0 ≤ first ∧ first ≤ last ∧ last ≤ impl.fSize
  · rw [if_pos range, if_pos range]
    obtain ⟨impl', erased, good', slots'⟩ :=
      Good.eraseLoop first.toNat (last - first).toNat good (by omega)
    refine ⟨impl', erased, good', ?_⟩
    rw [slots', show first.toNat + (last - first).toNat = last.toNat by omega]
  · rw [if_neg range, if_neg range]
    exact ⟨impl, rfl, good, rfl⟩

theorem Good.removeAny (good : impl.Good) (slot : Int) :
    ∃ impl', impl.remove slot = some impl' ∧ impl'.Good ∧
      impl'.slots = Slots.remove slot impl.slots := by
  unfold Slots.remove
  by_cases negative : 0 ≤ slot
  · rw [if_pos negative]
    by_cases inside : slot < impl.fSize
    · obtain ⟨impl', removed, good', slots', -⟩ := good.remove slot.toNat (by omega)
      rw [Int.toNat_of_nonneg negative] at removed
      exact ⟨impl', removed, good', slots'⟩
    · refine ⟨impl, ?_, good, ?_⟩
      · unfold AnyArrayImpl.remove
        rw [if_neg (by omega)]
      · rw [eraseIdx_of_length_le]
        rw [good.length_slots]
        omega
  · refine ⟨impl, ?_, good, ?_⟩
    · unfold AnyArrayImpl.remove
      rw [if_neg (by omega)]
    · rw [if_neg negative]

/-- Slots are inserted where they are asked for. -/
theorem Good.insertReserve (good : impl.Good) {pos size : Nat}
    (inside : pos ≤ impl.fSize) (any : 0 < impl.fSize + size) :
    ∃ impl', impl.insertReserve pos size = some impl' ∧ impl'.Good ∧
      impl'.slots = Slots.insertReserve pos size impl.slots := by
  obtain ⟨mid, done, midGood, midSlots, midSize⟩ := good.at_ (impl.fSize + size - 1) id
  have length := good.length_slots
  have indSize : mid.fInd.fSize = impl.fSize + size := by
    rw [midGood.size, midSize]
    omega
  have grown : mid.slots = impl.slots ++ List.replicate size AnyKeyAssoc.empty := by
    rw [midSlots]
    unfold Slots.at_ Slots.setValue
    rw [length, show impl.fSize + size - 1 + 1 - impl.fSize = size by omega]
    exact modify_id _ _
  have middle : mid.fInd.fSize - size = impl.fSize := by omega
  have perm := AnyIndTable.insertReserve_perm mid.fInd pos size (by omega)
  have sound := midGood.toSound.reorder perm
  have result : slots { mid with
      fInd := mid.fInd.insertReserve pos size
      fKeys := mid.fKeys.map (·.updateInserted pos size) } =
        Slots.insertReserve pos size impl.slots := by
    have moved : slots { mid with
        fInd := mid.fInd.insertReserve pos size
        fKeys := mid.fKeys.map (·.updateInserted pos size) } =
          mid.slots.take pos ++ mid.slots.drop impl.fSize ++
            (mid.slots.take impl.fSize).drop pos := by
      unfold slots AnyIndTable.insertReserve
      simp only [middle, map_append, map_take, map_drop]
      rfl
    rw [moved, grown, ← length, take_left, drop_left, take_append_of_le_length (by omega)]
    rfl
  have keysAfter := Slots.keys_insertReserve pos size impl.slots
  have keyOfAfter := Slots.keyOf_insertReserve impl.slots
    (show pos ≤ impl.slots.length by omega) size
  have sameNames : mid.slots.keyOf = impl.slots.keyOf := by
    rw [grown, Slots.keyOf_grow]
  refine ⟨{ mid with
      fInd := mid.fInd.insertReserve pos size
      fKeys := mid.fKeys.map (·.updateInserted pos size) },
    by rw [AnyArrayImpl.insertReserve, if_pos ⟨any, inside⟩, done, Option.map_some],
    ⟨⟨sound.buffers, sound.whole, sound.positive, sound.ind, sound.clean⟩, ?_, ?_, ?_⟩, result⟩
  · change (mid.fInd.insertReserve pos size).fIndexTable.length = mid.fSize
    rw [perm.length_eq, ← midGood.size]
    rfl
  · rw [result]
    exact good.keysOk.of_keys_eq keysAfter
  · rw [result]
    have keys := midGood.keys
    rw [sameNames] at keys
    change KeysFound (mid.fKeys.map _) _
    cases table : mid.fKeys with
    | none =>
      rw [table] at keys
      have unnamed : ∀ other, impl.slots.keyOf other = [] := keys
      intro other
      rw [keyOfAfter, unnamed, unnamed, ite_self, ite_self]
    | some t =>
      rw [table] at keys
      have ok : t.Ok impl.slots.keyOf (fun other => impl.slots.keyOf other ≠ []) := keys
      refine ok.updateInserted pos size (fun other before => ?_)
        (fun other first last => ?_) (fun other after => ?_)
      · rw [keyOfAfter, if_pos before]
        exact ⟨Iff.rfl, rfl⟩
      · rw [keyOfAfter, if_neg (by omega), if_pos last]
        exact fun named => named rfl
      · rw [keyOfAfter, if_neg (by omega), if_neg (by omega), Nat.add_sub_cancel]
        exact ⟨Iff.rfl, rfl⟩

/-! ## Sorting and cloning -/

theorem recreateLoop (keysOk : impl.slots.KeysOk) {keys : AnyKeyTable}
    (ok : keys.Ok impl.slots.keyOf (fun _ => False)) (n : Nat) :
    n ≤ impl.fSize → ∃ keys' : AnyKeyTable,
      (List.range n).foldlM impl.recreateKey keys = some keys' ∧
      keys'.Ok impl.slots.keyOf (fun slot => slot < n ∧ impl.slots.keyOf slot ≠ []) := by
  induction n with
  | zero =>
    intro _
    refine ⟨keys, rfl, ok.congr (fun slot => ?_) (fun _ _ => rfl)⟩
    exact ⟨False.elim, fun never => absurd never.1 (not_lt_zero _)⟩
  | succ n ih =>
    intro inside
    obtain ⟨before, done, beforeOk⟩ := ih (by omega)
    rw [range_succ, foldlM_append, done]
    simp only [Option.bind_eq_bind, Option.bind_some, foldlM_cons,
      foldlM_nil, Option.pure_def, Option.bind_fun_some]
    unfold recreateKey slotName
    rw [keyAt_eq]
    by_cases named : impl.slots.keyOf n = []
    · rw [named, if_neg (by simp)]
      refine ⟨before, rfl, beforeOk.congr (fun slot => ?_) (fun _ _ => rfl)⟩
      constructor
      · rintro ⟨less, isNamed⟩
        exact ⟨by omega, isNamed⟩
      · rintro ⟨less, isNamed⟩
        have other : slot ≠ n := by
          rintro rfl
          exact isNamed named
        exact ⟨by omega, isNamed⟩
    · rw [if_pos (length_pos_of_ne_nil named)]
      have keyed : AnyKeyTable.Keyed impl.slots.keyOf
          (fun slot => slot < n ∧ impl.slots.keyOf slot ≠ []) :=
        ⟨fun slot isMember => keysOk.keyed.nulFree slot isMember.2,
          fun first second isFirst isSecond =>
            keysOk.keyed.injective first second isFirst.2 isSecond.2⟩
      obtain ⟨after, appended, afterOk⟩ := beforeOk.append keyed
        impl.fSize n
        (keysOk.keyed.nulFree n named) (fun slot isMember => by omega)
        (fun isMember => absurd isMember.1 (lt_irrefl _))
        (fun other isMember same => by
          have equal := keysOk.keyed.injective other n isMember.2 named same
          omega)
        _ rfl (fun _ _ => rfl)
      refine ⟨after, appended, afterOk.congr (fun slot => ?_) (fun _ _ => rfl)⟩
      constructor
      · rintro (⟨less, isNamed⟩ | rfl)
        · exact ⟨by omega, isNamed⟩
        · exact ⟨by omega, named⟩
      · rintro ⟨less, isNamed⟩
        by_cases last : slot = n
        · exact Or.inr last
        · exact Or.inl ⟨by omega, isNamed⟩

theorem Sound.recreateKeyTable (sound : impl.Sound)
    (size : impl.fInd.fSize = impl.fSize) (keysOk : impl.slots.KeysOk)
    (noTable : impl.fKeys = none → ∀ slot, impl.slots.keyOf slot = [])
    (outdated : ∀ keys, impl.fKeys = some keys → ∃ keyAt member, keys.Ok keyAt member) :
    ∃ impl', impl.recreateKeyTable = some impl' ∧ impl'.Good ∧ impl'.slots = impl.slots := by
  unfold AnyArrayImpl.recreateKeyTable
  cases table : impl.fKeys with
  | none =>
    refine ⟨impl, rfl, ⟨sound, size, keysOk, ?_⟩, rfl⟩
    rw [table]
    exact noTable table
  | some keys =>
    obtain ⟨keyAt, member, ok⟩ := outdated keys table
    obtain ⟨keys', done, ok'⟩ := recreateLoop keysOk
      (AnyKeyTable.clear_ok ok impl.slots.keyOf) impl.fSize (le_refl _)
    refine ⟨{ impl with fKeys := some keys' }, ?_,
      ⟨⟨sound.buffers, sound.whole, sound.positive, sound.ind, sound.clean⟩, size, keysOk, ?_⟩, rfl⟩
    · simp only [done, Option.map_some]
    · refine ok'.congr (fun slot => ?_) (fun _ _ => rfl)
      constructor
      · exact fun isMember => isMember.2
      · intro named
        refine ⟨?_, named⟩
        rw [← size, ← slots_length]
        exact Slots.lt_of_keyOf_ne named

variable (good : impl.Good)
include good

theorem Good.recreateKeyTable :
    ∃ impl', impl.recreateKeyTable = some impl' ∧ impl'.Good ∧ impl'.slots = impl.slots := by
  have keys := good.keys
  refine good.toSound.recreateKeyTable good.size good.keysOk (fun table => ?_) (fun t table => ?_)
  · rw [table] at keys
    exact keys
  · rw [table] at keys
    exact ⟨_, _, keys⟩

theorem Good.sortByComparer (compare : AnyKeyAssoc α → AnyKeyAssoc α → Int) :
    ∃ impl', impl.sortByComparer compare = some impl' ∧ impl'.Good ∧
      impl'.slots = Slots.sortByComparer compare impl.slots := by
  have sorted : (impl.mergeSortByComparer compare).fInd.fIndexTable =
      impl.fInd.fIndexTable.mergeSort fun left right =>
        compare (impl.assocAt left) (impl.assocAt right) ≤ 0 := by
    change sortPart _ 0 (impl.fSize - 1) _ = _
    rw [← good.size]
    exact sortPart_all _
  have perm : (impl.mergeSortByComparer compare).fInd.fIndexTable.Perm impl.fInd.fIndexTable := by
    rw [sorted]
    exact mergeSort_perm _ _
  have reordered : (impl.mergeSortByComparer compare).slots =
      Slots.sortByComparer compare impl.slots := by
    unfold slots Slots.sortByComparer
    rw [sorted]
    exact map_mergeSort fun _ _ _ _ => rfl
  have slotsPerm : (impl.mergeSortByComparer compare).slots.Perm impl.slots := perm.map _
  have keys := good.keys
  have sound : (impl.mergeSortByComparer compare).Sound := good.toSound.reorder perm
  have recreated := sound.recreateKeyTable
    (by
      rw [show (impl.mergeSortByComparer compare).fInd.fSize = impl.fInd.fSize from perm.length_eq]
      exact good.size)
    (good.keysOk.of_perm slotsPerm)
    (fun table slot => by
      have noKeys : ∀ other, impl.slots.keyOf other = [] := by
        rw [show impl.fKeys = none from table] at keys
        exact keys
      by_contra named
      have isKey := Slots.mem_keys_iff.mpr ⟨named, slot, rfl⟩
      have perm' := ((slotsPerm.map Prod.fst).filter (· ≠ []))
      obtain ⟨isNamed, other, same⟩ := Slots.mem_keys_iff.mp (perm'.mem_iff.mp isKey)
      exact named (same.symm.trans (noKeys other)))
    (fun t table => by
      rw [show impl.fKeys = some t from table] at keys
      exact ⟨_, _, keys⟩)
  rw [reordered] at recreated
  exact recreated

/-- The slots are copied, each with its key. -/
theorem Good.deepCloneLoop (clone : α → α) (n : Nat) :
    n ≤ impl.fSize → ∃ pImpl : AnyArrayImpl α,
      (List.range n).foldlM (fun (pImpl : AnyArrayImpl α) i =>
        pImpl.atKey (impl.slotName i) fun _ => clone (impl.valueAt i))
          empty = some pImpl ∧
      pImpl.Good ∧ pImpl.fSize < pImpl.fCapacity ∧
      pImpl.slots = Slots.deepClone clone (impl.slots.take n) := by
  induction n with
  | zero =>
    intro _
    have room : 0 < adjustCapacity 4 := lt_of_lt_of_le (by decide) (le_adjustCapacity 4)
    exact ⟨empty, rfl, empty_good, room, rfl⟩
  | succ n ih =>
    intro inside
    obtain ⟨before, done, beforeGood, room, beforeSlots⟩ := ih (by omega)
    have less : n < impl.slots.length := by
      rw [good.length_slots]
      omega
    have slot : impl.slots[n]? = some (impl.keyAt n, impl.valueAt n) := by
      unfold slots at less ⊢
      rw [length_map] at less
      unfold keyAt valueAt AnyIndTable.constAt
      rw [getElem?_map, getElem?_eq_getElem less]
      rfl
    have key : (Option.map cstr (impl.slotName n)).getD [] = impl.keyAt n := by
      unfold slotName
      split
      · rename_i named
        rw [Option.map_some, Option.getD_some, cstr_of_nulFree]
        rw [keyAt_eq] at named ⊢
        exact good.keysOk.keyed.nulFree n (ne_nil_of_length_pos named)
      · rename_i unnamed
        exact (eq_nil_of_length_eq_zero (by omega)).symm
    obtain ⟨after, appended, afterGood, afterSlots, afterRoom⟩ :=
      beforeGood.atKey_new room (impl.slotName n) (fun text named => by
          unfold slotName at named
          split at named
          · cases named
            rename_i isNamed
            have nonempty := ne_nil_of_length_pos isNamed
            rw [keyAt_eq] at nonempty ⊢
            rw [cstr_of_nulFree (good.keysOk.keyed.nulFree n nonempty)]
            refine ⟨nonempty, fun again => ?_⟩
            -- the key would be carried by an earlier slot as well
            obtain ⟨-, other, same⟩ := Slots.mem_keys_iff.mp again
            have cloned : Slots.keyOf before.slots other ≠ [] := by
              rw [same]
              exact nonempty
            have early := Slots.lt_of_keyOf_ne cloned
            rw [beforeSlots] at early same
            unfold Slots.deepClone at early same
            rw [length_map, length_take] at early
            have sameNames : ((impl.slots.take n).map fun assoc =>
                (assoc.1, clone assoc.2)).map Prod.fst = (impl.slots.take n).map Prod.fst := by
              rw [map_map]
              rfl
            rw [Slots.keyOf_of_map_fst sameNames] at same
            have there : Slots.keyOf (impl.slots.take n) other = impl.slots.keyOf other := by
              unfold Slots.keyOf
              rw [getElem?_take, if_pos (by omega)]
            rw [there] at same
            have equal := good.keysOk.keyed.injective other n
              (by rw [same]; exact nonempty) nonempty same
            omega
          · cases named)
        (fun _ => clone (impl.valueAt n))
    refine ⟨after, ?_, afterGood, afterRoom, ?_⟩
    · rw [range_succ, foldlM_append, done]
      simp only [Option.bind_eq_bind, Option.bind_some, foldlM_cons,
        foldlM_nil, Option.pure_def, Option.bind_fun_some]
      exact appended
    · rw [afterSlots, beforeSlots, key, take_add_one, slot]
      unfold Slots.deepClone
      rw [map_append]
      rfl

theorem Good.deepClone (clone : α → α) :
    ∃ impl', impl.deepClone clone = some impl' ∧ impl'.Good ∧
      impl'.slots = Slots.deepClone clone impl.slots := by
  obtain ⟨pImpl, done, cloneGood, -, cloneSlots⟩ :=
    good.deepCloneLoop clone impl.fSize (le_refl _)
  refine ⟨pImpl, done, cloneGood, ?_⟩
  rw [cloneSlots, ← good.length_slots, take_length]

end AnyArrayImpl

end Coast
