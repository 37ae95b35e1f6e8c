import Coast.Wdbase.CacheHandler

/-!
# The cache between the calls

Every section of the cache handler keeps its arrays in order.  Only what is
kept under the name of the call changes.
-/

namespace Coast

open Heap List

namespace Slots

variable {slots : Slots Handle}

variable {key : Bytes}

theorem mem_setIndex_of_ne {i : Nat}
    (differs : slots.keyOf i ≠ key) (value any : Handle) :
    (key, any) ∈ slots.setIndex i value ↔ (key, any) ∈ slots := by
  rw [mem_iff_getElem?, mem_iff_getElem?]
  apply exists_congr
  intro j
  rw [setIndex, getElem?_modify]
  by_cases same : i = j
  · subst same
    rw [keyOf] at differs
    cases here : slots[i]? with
    | none => simp
    | some slot =>
      rw [here] at differs
      have other : slot.1 ≠ key := differs
      simp only [if_true, Option.map_eq_map, Option.map_some, Option.some.injEq]
      constructor
      · intro equal
        exact absurd (congrArg Prod.fst equal) other
      · intro equal
        exact absurd (congrArg Prod.fst equal) other
  · simp [same]

theorem keyOf_of_findIndex {i : Nat}
    (found : slots.findIndex key = some i) : slots.keyOf i = cstr key := by
  rw [findIndex] at found
  split at found
  · cases found
  · rcases findIdx?_eq_some_iff_getElem.mp found with ⟨inside, same, -⟩
    rw [keyOf, getElem?_eq_getElem inside]
    simpa using same

theorem mem_setKey_of_ne {other : Bytes} (nulFree : NulFree key)
    (differs : key ≠ other) (value any : Handle) :
    (other, any) ∈ slots.setKey key value ↔ (other, any) ∈ slots := by
  rw [setKey]
  cases found : slots.findIndex key with
  | some i =>
    apply mem_setIndex_of_ne
    rw [keyOf_of_findIndex found, cstr_of_nulFree nulFree]
    exact differs
  | none =>
    simp only [mem_append, mem_singleton]
    rw [cstr_of_nulFree nulFree]
    constructor
    · intro either
      rcases either with known | new
      · exact known
      · exact absurd (congrArg Prod.fst new).symm differs
    · exact Or.inl

theorem mem_setKey_self (key : Bytes) (nulFree : NulFree key)
    (value : Handle) : (key, value) ∈ slots.setKey key value := by
  rw [setKey]
  cases found : slots.findIndex key with
  | some i =>
    have carried := keyOf_of_findIndex found
    have inside := Slots.findIndex_lt found
    rw [cstr_of_nulFree nulFree, keyOf, getElem?_eq_getElem inside] at carried
    simp only
    apply mem_iff_getElem?.mpr
    refine ⟨i, ?_⟩
    rw [setIndex, getElem?_modify_eq, getElem?_eq_getElem inside]
    exact congrArg some (Prod.ext carried rfl)
  | none =>
    simp only [mem_append, mem_singleton]
    rw [cstr_of_nulFree nulFree]
    exact Or.inr rfl

end Slots

namespace CacheHandler

variable {heap heap' : Heap} {name : EntryName}

/-! ## Changes of the entries -/

/-- What the array of a group holds. -/
structure EntriesOk (heap heap' : Heap) (place : Nat) : Prop where
  array : heap'[place]? = some (AnyImpl.array (heap'.arrayAt place))
  keysOk : (heap'.arrayAt place).KeysOk
  entries : ∀ entry ∈ heap'.arrayAt place, entry.2 ≠ none ∧ Inside (Outside heap) heap' entry.2

variable {place : Nat}

theorem CacheOk.entriesOk (ok : CacheOk heap)
    (group : Group heap place) : EntriesOk heap heap place :=
  ⟨(ok.group group).1, (ok.group group).2, ok.entries place group⟩

theorem EntriesOk.same (entriesOk : EntriesOk heap heap place) (grows : heap.length ≤ heap'.length)
    (same : heap'[place]? = heap[place]?) : EntriesOk heap heap' place := by
  have slots : heap'.arrayAt place = heap.arrayAt place := by
    rw [arrayAt, arrayAt, same]
  refine ⟨?_, ?_, ?_⟩
  · rw [slots, same]
    exact entriesOk.array
  · rw [slots]
    exact entriesOk.keysOk
  · rw [slots]
    intro entry member
    have kept := entriesOk.entries entry member
    exact ⟨kept.1, kept.2.grow grows⟩

theorem owned_congr (root : heap'[0]? = heap[0]?) : owned heap' = owned heap := by
  rw [owned, owned, arrayAt, arrayAt, root]

theorem outside_congr (root : heap'[0]? = heap[0]?) : Outside heap' = Outside heap := by
  funext place
  rw [Outside, Outside, owned_congr root]

theorem CacheOk.change (ok : CacheOk heap) (root : heap'[0]? = heap[0]?)
    (groups : ∀ place, Group heap place → EntriesOk heap heap' place)
    (closed : Closed (Outside heap) heap') : CacheOk heap' := by
  have slots : heap'.arrayAt 0 = heap.arrayAt 0 := by
    rw [arrayAt, arrayAt, root]
  refine ⟨?_, ?_, ?_, ?_, ?_, ?_⟩
  · rw [slots, root]
    exact ok.root
  · rw [slots]
    exact ok.groupKeys
  · rw [slots]
    intro slot among
    rcases ok.groups slot among with ⟨place, held, -⟩
    have inOrder := groups place (group_of_mem among held)
    exact ⟨place, held, inOrder.array, inOrder.keysOk⟩
  · rw [owned_congr root]
    exact ok.distinct
  · rw [slots, outside_congr root]
    intro place group
    exact (groups place group).entries
  · rw [outside_congr root]
    exact closed

theorem get_congr (ok : CacheOk heap) (ok' : CacheOk heap') {other : EntryName}
    (same : ∀ place entry, ((other.group, some place) ∈ heap'.arrayAt 0 ∧
        (other.key, some entry) ∈ heap'.arrayAt place) ↔
      ((other.group, some place) ∈ heap.arrayAt 0 ∧ (other.key, some entry) ∈ heap.arrayAt place)) :
    get heap' other = get heap other := by
  apply Option.ext
  intro entry
  rw [get_eq_some_iff ok', get_eq_some_iff ok]
  simp only [same]

/-- The cache stays in order, and the other entries stay as they are. -/
structure Effect (heap heap' : Heap) (name : EntryName) : Prop where
  ok : CacheOk heap'
  outside : ∀ any, Inside (Outside heap) heap any → Inside (Outside heap') heap' any
  others : ∀ other, other ≠ name → get heap' other = get heap other

def Untouched (heap heap' : Heap) : Prop :=
  ∀ place < heap.length, Outside heap place → heap'[place]? = heap[place]?

theorem CacheOk.change_group (ok : CacheOk heap)
    (among : (name.group, some place) ∈ heap.arrayAt 0) (write : Slots Handle → Slots Handle)
    (keysOk : (write (heap.arrayAt place)).KeysOk)
    (entries : ∀ entry ∈ write (heap.arrayAt place),
      entry.2 ≠ none ∧ Inside (Outside heap) heap entry.2)
    (others : ∀ other any, name.key ≠ other →
      ((other, any) ∈ write (heap.arrayAt place) ↔ (other, any) ∈ heap.arrayAt place)) :
    Effect heap (heap.update place write) name ∧ Untouched heap (heap.update place write) := by
  have group := group_of_mem among rfl
  have array := (ok.group group).1
  have written := update_here write array
  have root : (heap.update place write)[0]? = heap[0]? :=
    update_elsewhere heap write (ok.group_ne group).symm
  have kept : ∀ other, other ≠ place →
      (heap.update place write).arrayAt other = heap.arrayAt other := by
    intro other different
    rw [arrayAt, arrayAt, update_elsewhere heap write different]
  have inOrder : CacheOk (heap.update place write) := by
    apply ok.change root
    · intro other known
      by_cases same : other = place
      · subst same
        rw [← arrayAt_of written] at keysOk
        refine ⟨by rw [arrayAt_of written]; exact written, keysOk, ?_⟩
        rw [arrayAt_of written]
        intro entry member
        have kept := entries entry member
        exact ⟨kept.1, kept.2.grow (by simp)⟩
      · exact (ok.entriesOk known).same (by simp) (update_elsewhere heap write same)
    · intro other impl outside found any member
      have different : other ≠ place := by
        rintro rfl
        exact group.not_outside outside
      rw [update_elsewhere heap write different] at found
      exact (ok.closed other impl outside found any member).grow (by simp)
  refine ⟨⟨inOrder, ?_, ?_⟩, ?_⟩
  · intro any inside
    rw [outside_congr root]
    exact inside.grow (by simp)
  · intro other different
    apply get_congr ok inOrder
    intro there entry
    rw [kept 0 (ok.group_ne group).symm]
    apply and_congr_right
    intro known
    by_cases same : there = place
    · subst same
      rw [arrayAt_of written]
      have sameGroup := ok.group_unique known among
      apply others
      intro sameKey
      exact different (EntryName.ext sameGroup sameKey.symm)
    · rw [kept there same]
  · intro other _ outside
    apply update_elsewhere
    rintro rfl
    exact group.not_outside outside

/-- What is loaded changes no entry. -/
structure Grown (heap heap' : Heap) : Prop where
  ok : CacheOk heap'
  outside : ∀ any, Inside (Outside heap) heap any → Inside (Outside heap') heap' any
  untouched : Untouched heap heap'
  shown : ∀ name, get heap' name = get heap name

theorem CacheOk.append (ok : CacheOk heap) {loaded : Loaded} (fits : Fits heap loaded) :
    Grown heap (heap ++ loaded.objects) ∧
      Inside (Outside (heap ++ loaded.objects)) (heap ++ loaded.objects) loaded.any := by
  have grows : heap.length ≤ (heap ++ loaded.objects).length := by simp
  have kept : ∀ place < heap.length, (heap ++ loaded.objects)[place]? = heap[place]? :=
    fun place known => getElem?_append_left known
  have inHeap : 0 < heap.length := (List.getElem?_eq_some_iff.mp ok.root).choose
  have inside : ∀ any ∈ loaded.any :: loaded.objects.flatMap AnyImpl.handles,
        Inside (Outside heap) (heap ++ loaded.objects) any := by
    intro any member place same
    rcases fits any member with null | ⟨other, bound, held, outside⟩
    · rw [null] at same
      cases same
    · rw [held] at same
      cases same
      exact ⟨outside, bound⟩
  have root := kept 0 inHeap
  have slots : ∀ place, Group heap place ∨ place = 0 →
      Heap.arrayAt (heap ++ loaded.objects) place = heap.arrayAt place := by
    intro place known
    have there : place < heap.length := by
      rcases known with group | rfl
      · exact (List.getElem?_eq_some_iff.mp (ok.group group).1).choose
      · exact inHeap
    rw [arrayAt, arrayAt, kept place there]
  have inOrder : CacheOk (heap ++ loaded.objects) := by
    apply ok.change root
    · intro place group
      have there := (List.getElem?_eq_some_iff.mp (ok.group group).1).choose
      exact (ok.entriesOk group).same grows (kept place there)
    · intro place impl outside found any member
      by_cases known : place < heap.length
      · rw [kept place known] at found
        exact (ok.closed place impl outside found any member).grow grows
      · rw [getElem?_append_right (not_lt.mp known)] at found
        apply inside any
        apply mem_cons_of_mem
        exact mem_flatMap.mpr ⟨impl, mem_of_getElem? found, member⟩
  have found : ∀ other, get (heap ++ loaded.objects) other = get heap other := by
    intro other
    apply get_congr ok inOrder
    intro place entry
    rw [slots 0 (Or.inr rfl)]
    apply and_congr_right
    intro among
    rw [slots place (Or.inl (group_of_mem among rfl))]
  have sameOutside := outside_congr root
  refine ⟨⟨inOrder, ?_, fun place known _ => kept place known, found⟩, ?_⟩
  · intro any within
    rw [sameOutside]
    exact within.grow grows
  · rw [sameOutside]
    exact inside loaded.any mem_cons_self

theorem get_of_mem (ok : CacheOk heap) (named : name.Named) {any : Handle}
    (among : (name.group, some place) ∈ heap.arrayAt 0)
    (inside : (name.key, any) ∈ heap.arrayAt place) :
    get heap name = any := by
  have kept : any ≠ none := (ok.entries place (group_of_mem among rfl) _ inside).1
  rcases Option.ne_none_iff_exists'.mp kept with ⟨entry, rfl⟩
  exact (get_eq_some_iff ok name entry).mpr ⟨named, place, among, inside⟩

variable {toCache : Handle}

theorem store_known_effect (ok : CacheOk heap)
    (notNull : toCache ≠ none) (inside : Inside (Outside heap) heap toCache)
     (found : groupAt heap name.group = some place) :
    Effect heap (store heap name toCache) name ∧ Untouched heap (store heap name toCache) ∧
      (name.Named → get (store heap name toCache) name = toCache) := by
  have among := (ok.groupKeys.join_lookup_iff name.groupEnds place).mp found
  have group := group_of_mem among.2 rfl
  have array := ok.group group
  have written := update_here (Slots.setKey · name.key toCache) array.1
  rw [store_known ok found]
  have entries : ∀ entry ∈ (heap.arrayAt place).setKey name.key toCache,
      entry.2 ≠ none ∧ Inside (Outside heap) heap entry.2 := by
    intro entry member
    rcases Slots.mem_setKey entry member with new | ⟨old, known, same⟩
    · rw [new]
      exact ⟨notNull, inside⟩
    · rw [← same]
      exact ok.entries place group old known
  have others : ∀ other any, name.key ≠ other →
      ((other, any) ∈ (heap.arrayAt place).setKey name.key toCache ↔
        (other, any) ∈ heap.arrayAt place) :=
    fun other any differs =>
      Slots.mem_setKey_of_ne name.keyEnds differs toCache any
  have changed := ok.change_group among.2 (Slots.setKey · name.key toCache)
    (array.2.setKey name.keyEnds toCache) entries others
  refine ⟨changed.1, changed.2, fun named => ?_⟩
  apply get_of_mem changed.1.ok named
  · rw [arrayAt, update_elsewhere heap _ (ok.group_ne group).symm]
    exact among.2
  · rw [arrayAt_of written]
    exact Slots.mem_setKey_self name.key name.keyEnds toCache

/-- A store under a new group. -/
structure NewGroup (heap after : Heap) (name : EntryName) (toCache : Handle) : Prop where
  size : after.length = heap.length + 1
  root : after[0]? = some (AnyImpl.array (heap.arrayAt 0 ++ [(name.group, some heap.length)]))
  last : after[heap.length]? = some (AnyImpl.array [(name.key, toCache)])
  kept : ∀ place < heap.length, place ≠ 0 → after[place]? = heap[place]?

theorem store_newGroup (ok : CacheOk heap)
    (absent : groupAt heap name.group = none) (toCache : Handle) :
    NewGroup heap (store heap name toCache) name toCache := by
  rw [store_new ok absent]
  have inHeap : 0 < heap.length := (List.getElem?_eq_some_iff.mp ok.root).choose
  have grown : (heap.update 0
      (· ++ [(name.group, some heap.length)])).length = heap.length :=
    length_update ..
  refine ⟨by simp, ?_, ?_, ?_⟩
  · rw [getElem?_append_left (by rw [grown]; exact inHeap)]
    exact update_here _ ok.root
  · rw [getElem?_append_right grown.le, grown, Nat.sub_self]
    rfl
  · intro place known different
    rw [getElem?_append_left (by rw [grown]; exact known)]
    exact update_elsewhere heap _ different

section NewGroup

variable {after : Heap} {toCache : Handle}

theorem owned_lt (ok : CacheOk heap) {place : Nat}
    (own : some place ∈ owned heap) : place < heap.length := by
  rcases mem_cons.mp own with same | group
  · cases same
    exact (List.getElem?_eq_some_iff.mp ok.root).choose
  · exact (List.getElem?_eq_some_iff.mp (ok.group group).1).choose

section

variable (new : NewGroup heap after name toCache)
include new

theorem NewGroup.owned_eq : owned after = owned heap ++ [some heap.length] := by
  rw [owned, owned, arrayAt_of new.root, map_append]
  rfl

theorem NewGroup.outside_iff (place : Nat) :
    Outside after place ↔ Outside heap place ∧ place ≠ heap.length := by
  rw [Outside, new.owned_eq, mem_append, not_or, mem_singleton, Option.some_inj]
  exact Iff.rfl

theorem NewGroup.stays {any : Handle} (within : Inside (Outside heap) heap any) :
    Inside (Outside after) after any := by
  intro place same
  have before := within place same
  refine ⟨(new.outside_iff place).mpr ⟨before.1, before.2.ne⟩, ?_⟩
  rw [new.size]
  exact Nat.lt_succ_of_lt before.2

theorem NewGroup.oldGroup (ok : CacheOk heap) {place : Nat} (group : Group heap place) :
    after[place]? = heap[place]? ∧ after.arrayAt place = heap.arrayAt place := by
  have same := new.kept place (owned_lt ok (mem_cons_of_mem _ group)) (ok.group_ne group)
  exact ⟨same, by rw [arrayAt, arrayAt, same]⟩

end

theorem keysOk_single {key : Bytes} (nulFree : NulFree key)
    (any : Handle) : Slots.KeysOk [(key, any)] := by
  have start : Slots.KeysOk ([] : Slots Handle) := ⟨nodup_nil, fun _ member => nomatch member⟩
  have made := start.setKey nulFree any
  rwa [Slots.setKey_of_notMem any nulFree not_mem_nil] at made

variable (new : NewGroup heap after name toCache)
include new

theorem NewGroup.groups (ok : CacheOk heap) :
    ∀ slot ∈ after.arrayAt 0, ∃ place, slot.2 = some place ∧
      after[place]? = some (AnyImpl.array (after.arrayAt place)) ∧
      (after.arrayAt place).KeysOk := by
  rw [arrayAt_of new.root]
  intro slot member
  rcases mem_append.mp member with old | made
  · rcases ok.groups slot old with ⟨place, held, array, keysOk⟩
    rcases new.oldGroup ok (group_of_mem old held) with ⟨same, slots⟩
    refine ⟨place, held, ?_, ?_⟩
    · rw [slots, same]
      exact array
    · rw [slots]
      exact keysOk
  · rw [mem_singleton.mp made]
    refine ⟨heap.length, rfl, ?_, ?_⟩
    · rw [arrayAt_of new.last]
      exact new.last
    · rw [arrayAt_of new.last]
      exact keysOk_single name.keyEnds toCache

theorem NewGroup.entries
    (ok : CacheOk heap) (notNull : toCache ≠ none) (inside : Inside (Outside heap) heap toCache) :
    ∀ place, Group after place → ∀ entry ∈ after.arrayAt place,
      entry.2 ≠ none ∧ Inside (Outside after) after entry.2 := by
  intro place group entry member
  rw [Group, arrayAt_of new.root, map_append, mem_append] at group
  rcases group with old | made
  · rw [(new.oldGroup ok old).2] at member
    have before := ok.entries place old entry member
    exact ⟨before.1, new.stays before.2⟩
  · cases mem_singleton.mp made
    rw [arrayAt_of new.last] at member
    rw [mem_singleton.mp member]
    exact ⟨notNull, new.stays inside⟩

theorem NewGroup.ok (ok : CacheOk heap) (absent : groupAt heap name.group = none)
    (notNull : toCache ≠ none) (inside : Inside (Outside heap) heap toCache) : CacheOk after := by
  refine ⟨?_, ?_, new.groups ok, ?_, new.entries ok notNull inside, ?_⟩
  · rw [arrayAt_of new.root]
    exact new.root
  · have made := ok.groupKeys.setKey name.groupEnds (some heap.length)
    rw [Slots.setKey, groupAt_none ok absent, cstr_of_nulFree name.groupEnds] at made
    rw [arrayAt_of new.root]
    exact made
  · rw [new.owned_eq, ← concat_eq_append]
    apply ok.distinct.concat
    intro own
    exact absurd (owned_lt ok own) (lt_irrefl _)
  · intro place impl outside found any member
    have before := (new.outside_iff place).mp outside
    have old : place < heap.length := by
      have bound := (List.getElem?_eq_some_iff.mp found).choose
      have size := new.size
      omega
    have notRoot : place ≠ 0 := by
      rintro rfl
      exact before.1 mem_cons_self
    rw [new.kept place old notRoot] at found
    exact new.stays (ok.closed place impl before.1 found any member)

theorem NewGroup.others (ok : CacheOk heap) (inOrder : CacheOk after) {other : EntryName}
    (different : other ≠ name) : get after other = get heap other := by
  apply get_congr ok inOrder
  intro place entry
  rw [arrayAt_of new.root, mem_append, mem_singleton]
  constructor
  · rintro ⟨among | made, member⟩
    · rw [(new.oldGroup ok (group_of_mem among rfl)).2] at member
      exact ⟨among, member⟩
    · have last := new.last
      cases name
      cases other
      cases made
      rw [arrayAt_of last] at member
      cases mem_singleton.mp member
      exact absurd rfl different
  · rintro ⟨among, member⟩
    rw [← (new.oldGroup ok (group_of_mem among rfl)).2] at member
    exact ⟨Or.inl among, member⟩

end NewGroup

theorem store_new_effect (ok : CacheOk heap) (notNull : toCache ≠ none)
    (inside : Inside (Outside heap) heap toCache) (absent : groupAt heap name.group = none) :
    Effect heap (store heap name toCache) name ∧ Untouched heap (store heap name toCache) ∧
      (name.Named → get (store heap name toCache) name = toCache) := by
  have new := store_newGroup ok absent toCache
  have inOrder := new.ok ok absent notNull inside
  refine ⟨⟨inOrder, fun any => new.stays, ?_⟩, ?_, ?_⟩
  · intro other different
    exact new.others ok inOrder different
  · intro place old outside
    apply new.kept place old
    rintro rfl
    exact outside mem_cons_self
  · intro named
    have among : (name.group, some heap.length) ∈ Heap.arrayAt (store heap name toCache) 0 := by
      rw [arrayAt_of new.root]
      exact mem_append_right _ (mem_singleton.mpr rfl)
    apply get_of_mem inOrder named among
    rw [arrayAt_of new.last]
    exact mem_singleton.mpr rfl

/-- A store changes its own entry only. -/
theorem store_effect (ok : CacheOk heap) (notNull : toCache ≠ none)
    (inside : Inside (Outside heap) heap toCache) (name : EntryName) :
    Effect heap (store heap name toCache) name ∧ Untouched heap (store heap name toCache) ∧
      (name.Named → get (store heap name toCache) name = toCache) := by
  cases found : groupAt heap name.group with
  | some place => exact store_known_effect ok notNull inside found
  | none => exact store_new_effect ok notNull inside found

end CacheHandler

end Coast
