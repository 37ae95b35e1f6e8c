import Coast.Wdbase.CacheInvariant
import Coast.Base.SlotCleaning

/-!
# Merging into an entry and removing it

`Reload` merges into the Anything that is kept, and `Unload` finds its slot by
a path.
-/

namespace Coast.CacheHandler

open Heap List Option

variable {heap heap' : Heap} {name : EntryName} {ref : AnyRef}

/-- The slot of an entry that is there. -/
structure KeptAt (heap : Heap) (name : EntryName) (ref : AnyRef) : Prop where
  among : (name.group, some ref.place) ∈ heap.arrayAt 0
  index : (heap.arrayAt ref.place).findIndex name.key = some ref.index
  named : name.Named
  held : heap.get ref = get heap name

theorem keptAt_of_get (ok : CacheOk heap) {entry : Nat}
    (found : get heap name = some entry) : ∃ ref, KeptAt heap name ref := by
  rcases (get_eq_some_iff ok name entry).mp found with ⟨named, place, among, inside⟩
  have keysOk := (ok.group (group_of_mem among rfl)).2
  have known := (keysOk.lookup_eq_some_iff name.keyEnds named.2 (some entry)).mpr inside
  rcases findIndex_of_lookup known with ⟨i, index, held⟩
  exact ⟨⟨place, i⟩, among, index, named, held.trans found.symm⟩

section

variable (kept : KeptAt heap name ref)
include kept

theorem KeptAt.entryRef (ok : CacheOk heap) :
    entryRef heap name = (heap, ref) := by
  have found := (ok.groupKeys.join_lookup_iff name.groupEnds ref.place).mpr
    ⟨kept.named.1, kept.among⟩
  rw [entryRef_known ok found, kept.index]

theorem KeptAt.region (ok : CacheOk heap)
    (In : Nat → Prop) (fresh : ∀ place, heap.length ≤ place → In place)
    (apart : ∀ place, In place → place < heap.length →
      Outside heap place) : Region In ref heap := by
  have group := group_of_mem kept.among rfl
  refine ⟨fresh, ?_, Slots.findIndex_lt kept.index⟩
  intro here
  exact group.not_outside (apart _ here (owned_lt ok (mem_cons_of_mem _ group)))

theorem KeptAt.effect {Top : Handle → Prop} (ok : CacheOk heap)
    (notNull : ∀ any, Top any → any ≠ none)
    (confined : Confined (Outside heap) ref Top heap heap') :
    Effect heap heap' name ∧ Top (get heap' name) := by
  have group := group_of_mem kept.among rfl
  rcases confined.atTop with ⟨any, allowed, inside, found⟩
  have slots := arrayAt_of found
  have root : heap'[0]? = heap[0]? := by
    apply confined.others 0 (owned_lt ok mem_cons_self)
    · intro outside
      exact outside mem_cons_self
    · exact (ok.group_ne group).symm
  have same : ∀ place, Group heap place → place ≠ ref.place → heap'[place]? = heap[place]? := by
    intro place there different
    have own := mem_cons_of_mem fCache there
    exact confined.others place (owned_lt ok own) (fun outside => outside own) different
  have inOrder : CacheOk heap' := by
    apply ok.change root
    · intro place there
      by_cases here : place = ref.place
      · rw [here]
        refine ⟨by rw [slots]; exact found, ?_, ?_⟩
        · rw [slots]
          exact (ok.group group).2.of_keys_eq (Slots.keys_of_map_fst
            (Slots.map_fst_setValue ref.index (fun _ => any) _))
        · rw [slots]
          intro entry member
          rcases Slots.mem_setIndex entry member with new | ⟨old, was, equal⟩
          · rw [new]
            exact ⟨notNull any allowed, inside⟩
          · rw [equal]
            have before := ok.entries _ group old was
            exact ⟨before.1, before.2.grow confined.grows⟩
      · exact (ok.entriesOk there).same confined.grows (same place there here)
    · exact confined.closed
  have carried : (heap.arrayAt ref.place).keyOf ref.index = name.key := by
    rw [Slots.keyOf_of_findIndex kept.index, cstr_of_nulFree name.keyEnds]
  have rootSlots : heap'.arrayAt 0 = heap.arrayAt 0 := by
    rw [arrayAt, arrayAt, root]
  refine ⟨⟨inOrder, ?_, ?_⟩, ?_⟩
  · intro other within
    rw [outside_congr root]
    exact within.grow confined.grows
  · intro other different
    apply get_congr ok inOrder
    intro place entry
    rw [rootSlots]
    apply and_congr_right
    intro known
    by_cases here : place = ref.place
    · subst here
      rw [slots]
      apply Slots.mem_setIndex_of_ne
      rw [carried]
      intro sameKey
      have sameGroup := ok.group_unique known kept.among
      exact different (EntryName.ext sameGroup sameKey.symm)
    · rw [arrayAt, arrayAt, same place (group_of_mem known rfl) here]
  · have member : (name.key, any) ∈ heap'.arrayAt ref.place := by
      have bound := Slots.findIndex_lt kept.index
      rw [slots, Slots.setIndex]
      apply mem_iff_getElem?.mpr
      refine ⟨ref.index, ?_⟩
      rw [getElem?_modify_eq, getElem?_eq_getElem bound]
      rw [Slots.keyOf, getElem?_eq_getElem bound] at carried
      exact congrArg some (Prod.ext carried rfl)
    rw [get_of_mem inOrder kept.named (rootSlots ▸ kept.among) member]
    exact allowed

end

variable {others : Nat → Nat} {depth : Nat} {toCache : Handle}

theorem reloadSection_loaded (ok : CacheOk heap) (notNull : toCache ≠ none)
    (kept : KeptAt heap name ref) {entry : Nat} (found : get heap name = some entry) :
    reloadSection others depth heap name toCache =
      AnyUtils.anyMerge others depth heap ref toCache true := by
  have loaded : isLoaded heap name = true := by
    rw [isLoaded_iff ok, found]
    exact nofun
  rw [reloadSection, if_neg notNull, if_pos loaded, kept.entryRef ok]

theorem reloadSection_new (ok : CacheOk heap) (notNull : toCache ≠ none)
    (absent : get heap name = none) :
    reloadSection others depth heap name toCache = some (store heap name toCache) := by
  have unloaded : ¬ isLoaded heap name = true := by
    rw [isLoaded_iff ok]
    exact not_not.mpr absent
  rw [reloadSection, if_neg notNull, if_neg unloaded]

theorem KeptAt.merge (kept : KeptAt heap name ref) {In : Nat → Prop}
    (Top : Handle → Prop) (region : Region In ref heap) (closed : Closed In heap)
    (inside : Inside In heap (get heap name))
    (allowed : Top (get heap name)) (notNull : toCache ≠ none)
    (may : (∀ any, any ≠ none → Top any) ∨
      (∀ any, Top any → heap.isArray any = true) ∧ heap.isArray toCache = true)
    (done : AnyUtils.anyMerge others depth heap ref toCache true =
      some heap') : Confined In ref Top heap heap' := by
  rcases map_eq_some_iff.mp done with ⟨⟨after, hits⟩, merged, rfl⟩
  rw [← kept.held] at inside allowed
  have start := Confined.start region closed allowed inside
  apply AnyUtils.doAnyMerge_confined region depth _ _ _ _ _ _ start ?_ notNull ?_ merged
  · rcases may with free | ⟨arrays, -⟩
    · exact Or.inl (Or.inr ⟨rfl, free⟩)
    · exact Or.inr ⟨rfl, arrays⟩
  · rcases may with free | ⟨-, array⟩
    · exact Or.inl (Or.inr ⟨rfl, free⟩)
    · exact Or.inr array

theorem merge_effect (ok : CacheOk heap) (kept : KeptAt heap name ref)
    {entry : Nat} (found : get heap name = some entry)
    (notNull : toCache ≠ none)
    (done : AnyUtils.anyMerge others depth heap ref toCache true = some heap') :
    Effect heap heap' name ∧ get heap' name ≠ none := by
  have region := kept.region ok (Outside heap)
    (fun place behind own => absurd (owned_lt ok own) (not_lt.mpr behind))
    (fun place outside _ => outside)
  have confined := kept.merge (· ≠ none) region ok.closed
    (ok.get_inside name) (by rw [found]; exact nofun) notNull (Or.inl fun any => id) done
  exact kept.effect ok (fun any => id) confined

/-- What is seen behind the handle of an entry, and what is new. -/
def SeenOrNew (heap : Heap) (name : EntryName) (place : Nat) : Prop :=
  Reaches heap (get heap name) place ∨ heap.length ≤ place

theorem seenOrNew_closed (ok : CacheOk heap) : Closed (SeenOrNew heap name) heap := by
  intro place impl either at_ other member inner same
  rw [same] at member
  rcases either with reaches | behind
  · have further := reaches.step at_ member
    exact ⟨Or.inl further, (further.inside ok.closed (ok.get_inside name)).2⟩
  · exact absurd (List.getElem?_eq_some_iff.mp at_).choose (not_lt.mpr behind)

theorem merge_unshared (ok : CacheOk heap) (kept : KeptAt heap name ref)
    {entry : Nat} (found : get heap name = some entry)
    (notNull : toCache ≠ none)
    (done : AnyUtils.anyMerge others depth heap ref toCache true = some heap') {any : Handle}
    (outside : Inside (Outside heap) heap any)
    (unshared : ∀ place, Reaches heap any place → ¬ Reaches heap (get heap name) place) :
    ∀ place, Reaches heap any place → heap'[place]? = heap[place]? := by
  have mine := ok.get_inside name
  have region : Region (SeenOrNew heap name) ref heap := by
    apply kept.region ok
    · exact fun place => Or.inr
    · rintro place (reaches | behind) known
      · exact (reaches.inside ok.closed mine).1
      · exact absurd known (not_lt.mpr behind)
  have inside : Inside (SeenOrNew heap name) heap (get heap name) :=
    fun place same => ⟨Or.inl ⟨place, same, .refl⟩, (mine place same).2⟩
  have confined := kept.merge (· ≠ none) region (seenOrNew_closed ok)
    inside (by rw [found]; exact nofun) notNull (Or.inl fun any => id) done
  intro place reaches
  have there := reaches.inside ok.closed outside
  apply confined.others place there.2
  · rintro (mineToo | behind)
    · exact unshared place reaches mineToo
    · exact absurd there.2 (not_lt.mpr behind)
  · rintro rfl
    exact (group_of_mem kept.among rfl).not_outside there.1

/-- The merge leaves the implementation in its place: an array is merged into
an array, or nothing is new. -/
def KeepsImpl (heap : Heap) (cached toCache : Handle) : Prop :=
  if heap.isArray toCache then
    heap.isArray cached = true ∨ ∀ slot ∈ heap.slots toCache,
      cstr slot.1 = [] ∧ heap.isArray slot.2 = false ∧
        heap.contains cached (heap.asString slot.2) = true
  else heap.asString cached = heap.asString toCache

instance (heap : Heap) (cached toCache : Handle) : Decidable (KeepsImpl heap cached toCache) :=
  inferInstanceAs (Decidable (ite _ _ _))

theorem mergeSlots_contained {merge : AnyUtils.Merge} {fuel : Nat}
    {bOverwriteSlots : Bool} {slots : Slots Handle} {root : Nat}
    (array : heap[root]? = some (AnyImpl.array slots))
    (contained : ∀ slot ∈ slots, cstr slot.1 = [] ∧
      heap.isArray slot.2 = false ∧ heap.contains (heap.get ref) (heap.asString slot.2) = true)
    (anyMasterIdx indexes : List Nat) (within : ∀ i ∈ indexes, i < slots.length) :
    ∀ {hits : Nat} {st : Heap × Nat},
      indexes.foldlM (AnyUtils.mergeSlot others bOverwriteSlots merge fuel
        ref (some root) anyMasterIdx false) (heap, hits) = some st →
        st.1 = heap := by
  induction indexes with
  | nil =>
    intro hits st done
    cases done
    rfl
  | cons i indexes ih =>
    intro hits st done
    have inside := within i mem_cons_self
    have known := contained slots[i] (getElem_mem inside)
    have input : ROAnythingLookup.at_ heap (some root) (i : Int) = slots[i].2 := by
      rw [ROAnythingLookup.at_, getSize_array array, if_neg (by omega), Heap.impl, bind_some, array]
      simp only [Int.toNat_natCast]
      rw [Heap.slot, getElem?_eq_getElem inside]
      rfl
    have listed : heap.slots (some root) = slots := by
      rw [Heap.slots, Heap.impl, bind_some, array]
    have unnamed : cstr (Slots.keyOf (heap.slots (some root)) i) = [] := by
      rw [listed, Slots.keyOf, getElem?_eq_getElem inside]
      exact known.1
    have merged : AnyUtils.mergeSlot others bOverwriteSlots merge fuel ref
        (some root) anyMasterIdx false (heap, hits) i = some (heap, hits + 1) := by
      rw [AnyUtils.mergeSlot]
      simp only [input, unnamed]
      rw [if_pos known.2.1, if_neg (not_not.mpr rfl), AnyUtils.mergeUnnamedLeaf, if_pos known.2.2]
      rfl
    rw [foldlM_cons, merged] at done
    exact ih (forall_mem_cons.mp within).2 done

theorem merge_keeps (ok : CacheOk heap) (kept : KeptAt heap name ref)
    {entry : Nat} (found : get heap name = some entry)
    (notNull : toCache ≠ none) (keeps : KeepsImpl heap (get heap name) toCache)
    (done : AnyUtils.anyMerge others depth heap ref toCache true =
      some heap') : get heap' name = get heap name := by
  rw [KeepsImpl] at keeps
  split at keeps
  · rename_i array
    rcases keeps with master | contained
    · have region := kept.region ok (Outside heap)
        (fun place behind own => absurd (owned_lt ok own) (not_lt.mpr behind))
        (fun place outside _ => outside)
      have confined := kept.merge (· = get heap name) region ok.closed
        (ok.get_inside name) rfl notNull (Or.inr ⟨fun any same => same ▸ master, array⟩) done
      exact (kept.effect ok (fun any same => by
        rw [same, found]
        exact nofun) confined).2
    · rcases isArray_iff.mp array with ⟨root, slots, rfl, here⟩
      rcases map_eq_some_iff.mp done with ⟨⟨after, hits⟩, merged, rfl⟩
      cases depth with
      | zero => cases merged
      | succ fuel =>
        simp only [AnyUtils.doAnyMerge] at merged
        rw [if_pos array, getSize_array here] at merged
        have listed : heap.slots (some root) = slots := by
          rw [Heap.slots, Heap.impl, bind_some, here]
        rw [listed, ← kept.held] at contained
        have same := mergeSlots_contained here contained _ _
          (fun i member => mem_range.mp member) merged
        rw [same]
  · rename_i leaf
    rcases map_eq_some_iff.mp done with ⟨⟨after, hits⟩, merged, rfl⟩
    cases depth with
    | zero => cases merged
    | succ fuel =>
      simp only [AnyUtils.doAnyMerge] at merged
      rw [if_neg leaf, AnyUtils.mergeValue, if_pos] at merged
      · cases merged
        rfl
      · rw [kept.held]
        exact Or.inr keeps

theorem path_eq_joinPath (name : EntryName) :
    name.path = joinPath [.key name.group, .key name.key] := by
  rw [joinPath, joinRest, flatMap_cons, flatMap_nil, append_nil]
  rfl

theorem findOrAt_array {place : Nat} {slots : Slots Handle}
    (found : heap[place]? = some (AnyImpl.array slots)) (key : Bytes) :
    findOrAt heap (some place) (.key key) = slots.lookup key := by
  rw [findOrAt, findIndex_array found, Slots.lookup]
  cases known : slots.findIndex key with
  | none => rfl
  | some i =>
    rw [map_some, bind_some, getElem?_eq_getElem (Slots.findIndex_lt known), AnythingLookup.doGetAt,
      Heap.impl, bind_some, found]
    simp only [Int.toNat_natCast]
    rw [Heap.slot, getElem?_eq_getElem (Slots.findIndex_lt known)]
    rfl

theorem KeptAt.lookup_group (kept : KeptAt heap name ref) (ok : CacheOk heap) :
    (heap.arrayAt 0).lookup name.group = some (some ref.place) :=
  (ok.groupKeys.lookup_eq_some_iff name.groupEnds kept.named.1 _).mpr kept.among

theorem EntryName.indicesBounded {name : EntryName} (plain : name.Plain) :
    IndicesBounded (ch ':') name.path := by
  intro front digits rest same _
  exact absurd (same ▸ mem_append_right front mem_cons_self) plain.noIndex

theorem lookupPath_plain (plain : name.Plain) :
    Anything.lookupPath heap fCache name.path (ch '.') (ch ':') =
      (heap, (findOrAtDefined heap fCache (.key name.group)).bind
        fun c => findOrAtDefined heap c (.key name.key)) := by
  have proper : ∀ step ∈ [SlotStep.key name.group, SlotStep.key name.key], step.Proper := by
    intro step member
    rcases mem_cons.mp member with rfl | last
    · exact plain.1
    · rw [mem_singleton.mp last]
      exact plain.2.1
  have known : HashesKnown [SlotStep.key name.group, SlotStep.key name.key] := by
    intro step member
    rw [mem_singleton.mp member]
    exact plain.2.2
  have follows := lookupPath_joinPath heap fCache _ (by simp) proper known
  rw [← path_eq_joinPath, PartialSteps.follow] at follows
  apply Prod.ext
    (lookupPath_heap defaultDelimiters heap fCache name.path_ends (EntryName.indicesBounded plain))
  rw [follows]
  congr 1
  funext c
  rw [PartialSteps.follow]
  exact bind_fun_some _

theorem KeptAt.lookupPath (kept : KeptAt heap name ref) (ok : CacheOk heap) (plain : name.Plain) :
    ∃ result, Anything.lookupPath heap fCache name.path (ch '.')
      (ch ':') = (heap, some result) := by
  have array := (ok.group (group_of_mem kept.among rfl)).1
  have bound := Slots.findIndex_lt kept.index
  have entry : (heap.arrayAt ref.place).lookup name.key =
      some (heap.arrayAt ref.place)[ref.index].2 := by
    rw [Slots.lookup, kept.index, bind_some, getElem?_eq_getElem bound]
    rfl
  rw [lookupPath_plain plain, findOrAtDefined, findOrAt_array ok.root, kept.lookup_group ok,
    bind_some, findOrAtDefined, findOrAt_array array, entry]
  exact ⟨_, rfl⟩

theorem unloadSection_plain (ok : CacheOk heap) (kept : KeptAt heap name ref) (plain : name.Plain) :
    unloadSection heap name = heap.update ref.place (Slots.remove ref.index) := by
  rcases kept.lookupPath ok plain with ⟨result, found⟩
  have array := (ok.group (group_of_mem kept.among rfl)).1
  have joined : name.path =
      joinTokens (ch '.') (ch ':') ([.key name.group] ++ [.key name.key]) := by
    rw [EntryName.path, singleton_append, joinTokens, tokensText, flatMap_singleton]
    rfl
  have proper : ∀ token ∈ [PathToken.key name.group] ++ [PathToken.key name.key],
      token.Proper (ch '.') (ch ':') :=
    forall_mem_cons.mpr ⟨plain.1, forall_mem_singleton.mpr plain.2.1⟩
  rw [joined] at found
  rcases SlotCleaner.operate_found defaultDelimiters proper
      (forall_mem_cons.mpr ⟨trivial, forall_mem_singleton.mpr trivial⟩) found
      (fun step member => mem_singleton.mp member ▸ plain.2.2) false with
    ⟨parent, leads, -, operates⟩
  have here : findOrAtDefined heap fCache (.key name.group) = some (some ref.place) := by
    rw [findOrAtDefined, findOrAt_array ok.root, kept.lookup_group ok]
  rw [map_singleton, PathToken.step, PartialSteps.follow, here] at leads
  cases leads
  rw [unloadSection, joined, operates, SlotCleaner.removed.eq_def, Bool.false_and,
    if_neg Bool.false_ne_true]
  change heap.removeKey (some ref.place) name.key = _
  rw [Heap.removeKey, findIndex_array array, kept.index]
  exact if_pos (isArray_array array)

theorem unload_effect (ok : CacheOk heap) (kept : KeptAt heap name ref) (plain : name.Plain) :
    Effect heap (unloadSection heap name) name ∧ Untouched heap (unloadSection heap name) ∧
      get (unloadSection heap name) name = none := by
  have group := group_of_mem kept.among rfl
  have array := ok.group group
  rw [unloadSection_plain ok kept plain]
  have written := update_here (Slots.remove ref.index) array.1
  have removed : (heap.arrayAt ref.place).remove ref.index =
      (heap.arrayAt ref.place).eraseIdx ref.index := by
    rw [Slots.remove, if_pos (Int.natCast_nonneg _), Int.toNat_natCast]
  have carried : (heap.arrayAt ref.place).keyOf ref.index = name.key := by
    rw [Slots.keyOf_of_findIndex kept.index, cstr_of_nulFree name.keyEnds]
  have sub := eraseIdx_sublist (heap.arrayAt ref.place) ref.index
  have changed := ok.change_group kept.among (Slots.remove ref.index) ?_ ?_ ?_
  · refine ⟨changed.1, changed.2, ?_⟩
    rw [eq_none_iff_forall_ne_some]
    intro entry found
    rcases (get_eq_some_iff changed.1.ok name entry).mp found with ⟨-, place, among, member⟩
    rw [arrayAt, update_elsewhere heap _ (ok.group_ne group).symm] at among
    have same : some (some ref.place) = some (some place) :=
      (kept.lookup_group ok).symm.trans ((ok.groupKeys.lookup_eq_some_iff
        name.groupEnds kept.named.1 _).mpr among)
    cases same
    rw [arrayAt_of written, removed, mem_eraseIdx_iff_getElem?] at member
    rcases member with ⟨i, different, here⟩
    have again : (heap.arrayAt ref.place).keyOf i = name.key := by
      rw [Slots.keyOf, here]
      rfl
    apply different
    apply array.2.keyed.injective
    · rw [again]
      exact kept.named.2
    · rw [carried]
      exact kept.named.2
    · rw [again, carried]
  · rw [removed]
    exact array.2.of_sublist ((sub.map Prod.fst).filter _)
  · rw [removed]
    intro entry member
    exact ok.entries _ group entry (sub.subset member)
  · intro other any differs
    rw [removed, mem_eraseIdx_iff_getElem?, mem_iff_getElem?]
    constructor
    · rintro ⟨i, -, here⟩
      exact ⟨i, here⟩
    · rintro ⟨i, here⟩
      refine ⟨i, ?_, here⟩
      rintro rfl
      rw [Slots.keyOf, here] at carried
      exact differs carried.symm

theorem unloadSection_nowhere
    (nowhere : Anything.lookupPath heap fCache name.path (ch '.')
      (ch ':') = (heap, none)) : unloadSection heap name = heap := by
  have filled : name.path ≠ [] := by simp [EntryName.path]
  rw [unloadSection, SlotCleaner.operate, if_neg filled, nowhere]

/-- The path of an entry that is not there leads nowhere. -/
theorem lookupPath_absent (ok : CacheOk heap) (plain : name.Plain) (absent : get heap name = none) :
    Anything.lookupPath heap fCache name.path (ch '.') (ch ':') = (heap, none) := by
  rw [lookupPath_plain plain, findOrAtDefined, findOrAt_array ok.root]
  cases known : (heap.arrayAt 0).lookup name.group with
  | none => rfl
  | some held =>
    have among := (ok.groupKeys.lookup_eq_some_iff name.groupEnds plain.1.1 held).mp known
    rcases ok.groups _ among with ⟨place, rfl, array, keysOk⟩
    rw [bind_some, findOrAtDefined, findOrAt_array array]
    cases inside : (heap.arrayAt place).lookup name.key with
    | none => rfl
    | some entry =>
      have member := (keysOk.lookup_eq_some_iff name.keyEnds plain.2.1.1 entry).mp inside
      have found := get_of_mem ok ⟨plain.1.1, plain.2.1.1⟩ among member
      have kept := ok.entries place (group_of_mem among rfl) _ member
      rw [absent] at found
      exact absurd found.symm kept.1

end Coast.CacheHandler
