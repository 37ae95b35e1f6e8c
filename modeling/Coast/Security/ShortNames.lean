import Coast.Security.TableCompressor

/-!
# Tables of short names

Every entry of a table has a short name of its own, so that the reverse table
leads back from it.
-/

namespace Coast

open List

namespace TableCompressor

private theorem keyAt_injective : ∀ i < 52, ∀ j < 52, keyAt i = keyAt j → i = j := by
  decide +kernel

private theorem isalpha_keyAt : ∀ i < 52, isalpha (keyAt i) = true := by
  decide +kernel

private theorem calcKey_eq (index : Nat) :
    calcKey index =
      (if 0 < index / 52 then calcKey (index / 52 - 1) else []) ++ [keyAt (index % 52)] := by
  rw [calcKey]

theorem calcKey_ne_nil (index : Nat) : calcKey index ≠ [] := by
  rw [calcKey_eq]
  exact append_ne_nil_of_right_ne_nil _ (cons_ne_nil _ _)

theorem isalpha_calcKey (index : Nat) : ∀ c ∈ calcKey index, isalpha c = true := by
  induction index using Nat.strongRecOn with
  | ind index ih =>
    rw [calcKey_eq]
    intro c member
    rcases mem_append.mp member with front | last
    · split at front
      · exact ih (index / 52 - 1) (by omega) c front
      · cases front
    · rw [mem_singleton.mp last]
      exact isalpha_keyAt _ (Nat.mod_lt _ (by decide))

theorem nulFree_calcKey (index : Nat) : NulFree (calcKey index) := fun member =>
  absurd (isalpha_calcKey index 0 member) (by decide)

theorem calcKey_injective : Function.Injective calcKey := by
  intro i
  induction i using Nat.strongRecOn with
  | ind i ih =>
    intro j same
    rw [calcKey_eq i, calcKey_eq j] at same
    obtain ⟨front, last⟩ := append_inj' same rfl
    have low : i % 52 = j % 52 :=
      keyAt_injective _ (Nat.mod_lt _ (by decide)) _
        (Nat.mod_lt _ (by decide)) (List.cons.inj last).1
    by_cases moreI : 0 < i / 52
    · by_cases moreJ : 0 < j / 52
      · rw [if_pos moreI, if_pos moreJ] at front
        have high := ih _ (by omega) front
        omega
      · rw [if_pos moreI, if_neg moreJ] at front
        exact absurd front (calcKey_ne_nil _)
    · by_cases moreJ : 0 < j / 52
      · rw [if_neg moreI, if_pos moreJ] at front
        exact absurd front.symm (calcKey_ne_nil _)
      · omega

/-- Every index has a short name of its own, which consists of letters. -/
theorem calcKey_names : Function.Injective calcKey ∧
    ∀ index, calcKey index ≠ [] ∧ ∀ c ∈ calcKey index, isalpha c = true :=
  ⟨calcKey_injective, fun index => ⟨calcKey_ne_nil index, isalpha_calcKey index⟩⟩

/-- The names given so far are short, and differ from each other. -/
structure ShortNames (count : Nat) (map : Slots Bytes) : Prop where
  keysOk : map.KeysOk
  short : ∀ slot ∈ map, ∃ i < count, slot.2 = calcKey i
  distinct : (map.map Prod.snd).Nodup

variable {count : Nat} {map : Slots Bytes}

private theorem notMem_short (names : ShortNames count map) : calcKey count ∉ map.map Prod.snd := by
  intro member
  rcases mem_map.mp member with ⟨slot, inside, same⟩
  rcases names.short slot inside with ⟨i, before, short⟩
  have index : i = count := calcKey_injective (short.symm.trans same)
  omega

private theorem map_snd_setIndex {α : Type} (place : Nat) (value : α) (slots : Slots α) :
    (slots.setIndex place value).map Prod.snd = (slots.map Prod.snd).set place value := by
  unfold Slots.setIndex
  apply ext_getElem?
  intro i
  rw [getElem?_map, getElem?_modify, getElem?_set, getElem?_map, length_map]
  by_cases here : place = i
  · cases found : slots[i]? with
    | none =>
      have behind := getElem?_eq_none_iff.mp found
      simp [here, behind]
    | some slot =>
      have inside := (List.getElem?_eq_some_iff.mp found).choose
      simp [here, inside]
  · simp [here]

private theorem values_setKey {α : Type} (slots : Slots α) (key : Bytes)
    {value : α} (distinct : (slots.map Prod.snd).Nodup) (fresh : value ∉ slots.map Prod.snd) :
    ((slots.setKey key value).map Prod.snd).Nodup ∧ ∀ other ∈ (slots.setKey key value).map Prod.snd,
        other ∈ slots.map Prod.snd ∨ other = value := by
  unfold Slots.setKey
  cases slots.findIndex key with
  | some place =>
    simp only
    rw [map_snd_setIndex]
    exact ⟨distinct.set fresh, fun _ => mem_or_eq_of_mem_set⟩
  | none =>
    simp only
    rw [map_append]
    refine ⟨concat_eq_append ▸ distinct.concat fresh, fun other member => ?_⟩
    exact (mem_append.mp member).imp_right mem_singleton.mp

theorem ShortNames.setKey (names : ShortNames count map) {name : Bytes} (nulFree : NulFree name) :
    ShortNames (count + 1) (map.setKey name (calcKey count)) := by
  have values := values_setKey map name names.distinct (notMem_short names)
  refine ⟨names.keysOk.setKey nulFree _, ?_, values.1⟩
  intro slot member
  rcases values.2 slot.2 (mem_map_of_mem member) with old | new
  · rcases mem_map.mp old with ⟨other, inside, same⟩
    rcases names.short other inside with ⟨i, before, short⟩
    exact ⟨i, by omega, same.symm.trans short⟩
  · exact ⟨count, by omega, new⟩

theorem ShortNames.mono (names : ShortNames count map) : ShortNames (count + 1) map := by
  refine ⟨names.keysOk, ?_, names.distinct⟩
  intro slot member
  rcases names.short slot member with ⟨i, before, short⟩
  exact ⟨i, by omega, short⟩

theorem shortNames_makeTable (state : Slots Anything) (count : Nat) :
    ShortNames count ((List.range count).foldl (mapEntry state) []) := by
  induction count with
  | zero => exact ⟨⟨by simp, by simp⟩, by simp, by simp⟩
  | succ count ih =>
    rw [range_succ, foldl_concat]
    generalize (List.range count).foldl (mapEntry state) [] = map at ih ⊢
    unfold mapEntry
    split
    · exact ih.setKey (nulFree_cstr _)
    · exact ih.mono

/-- Every short name of the table is led back to its name, and no other. -/
structure Reverses (reverse table : Slots Bytes) : Prop where
  forth : ∀ name short, NulFree name → table.lookup name = some short →
    NulFree short ∧ short ≠ [] ∧ reverse.lookup short = some name
  back : ∀ short name, NulFree short → reverse.lookup short = some name →
    NulFree name ∧ (name ≠ [] → table.lookup name = some short)

theorem lookup_named {α : Type} {slots : Slots α} {key : Bytes} {value : α}
    (found : slots.lookup key = some value) : key ≠ [] := by
  rintro rfl
  cases found

theorem reverses_nil : Reverses [] [] := by
  refine ⟨?_, ?_⟩ <;>
  · intro key value _ found
    simp [Slots.lookup, Slots.findIndex] at found

theorem ShortNames.reverses (names : ShortNames count map) :
    Reverses (makeReverseTable map) map := by
  have shortOk : ∀ slot ∈ map, NulFree slot.2 ∧ slot.2 ≠ [] := by
    intro slot member
    rcases names.short slot member with ⟨i, -, short⟩
    rw [short]
    exact ⟨nulFree_calcKey i, calcKey_ne_nil i⟩
  have entry : ∀ slot ∈ map, (cstr slot.2, cstr slot.1) = slot.swap := by
    intro slot member
    have nameFree := names.keysOk.nulFree_name slot member
    rw [cstr_of_nulFree (shortOk slot member).1, cstr_of_nulFree nameFree]
    rfl
  have swapped : map.map (fun slot => (cstr slot.2, cstr slot.1)) =
      map.map Prod.swap := map_congr_left entry
  have keys : Slots.keys (map.map Prod.swap) = map.map Prod.snd := by
    unfold Slots.keys
    rw [map_map, filter_eq_self.mpr]
    · rfl
    · intro short member
      rcases mem_map.mp member with ⟨slot, inside, rfl⟩
      simpa using (shortOk slot inside).2
  have keysOk : Slots.KeysOk (map.map Prod.swap) := by
    refine ⟨?_, ?_⟩
    · rw [keys]
      exact names.distinct
    · intro short member
      rw [keys] at member
      rcases mem_map.mp member with ⟨slot, inside, rfl⟩
      exact (shortOk slot inside).1
  have table : makeReverseTable map = map.map Prod.swap := by
    have built := Slots.setKeys_of_keysOk (show Slots.KeysOk ([] ++ _) from keysOk)
    rw [← swapped, Slots.setKeys, foldl_map, nil_append] at built
    rw [swapped] at built
    exact built
  refine ⟨?_, ?_⟩
  · intro name short nulFree found
    have member := (names.keysOk.lookup_eq_some_iff nulFree (lookup_named found) short).mp found
    have ok := shortOk _ member
    refine ⟨ok.1, ok.2, ?_⟩
    rw [table, keysOk.lookup_eq_some_iff ok.1 ok.2]
    exact mem_map.mpr ⟨_, member, rfl⟩
  · intro short name nulFree found
    rw [table] at found
    rw [keysOk.lookup_eq_some_iff nulFree (lookup_named found)] at found
    rcases mem_map.mp found with ⟨slot, member, same⟩
    cases same
    have nameFree := names.keysOk.nulFree_name slot member
    exact ⟨nameFree, fun named =>
      (names.keysOk.lookup_eq_some_iff nameFree named slot.2).mpr member⟩

end TableCompressor

end Coast
