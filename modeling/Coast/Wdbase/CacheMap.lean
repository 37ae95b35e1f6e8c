import Coast.Wdbase.CacheSections
import Coast.Library.Runs

/-!
# The cache as a map

Calls one after the other.  `Get` finds what has been loaded and not been
unloaded, and a call changes nothing under other names.
-/

namespace Coast.CacheHandler

open Heap Runs List

def load (heap : Heap) (name : EntryName) (loaded : Loaded) : Option Heap :=
  if isLoaded heap name then some heap
  else if Fits heap loaded then
    if loaded.any = none then some (heap ++ loaded.objects)
    else some (store (heap ++ loaded.objects) name loaded.any)
  else none

def reload (others : Nat → Nat) (depth : Nat) (heap : Heap)
    (name : EntryName) (loaded : Loaded) : Option Heap :=
  if Fits heap loaded then
    reloadSection others depth (heap ++ loaded.objects) name loaded.any
  else none

def unload (heap : Heap) (name : EntryName) : Heap :=
  if isLoaded heap name then unloadSection heap name else heap

/-- A call with what its policy loads.  A merge goes so deep at most, and
others hold implementations as often as told. -/
inductive Call where
  | load (name : EntryName) (loaded : Loaded)
  | reload (name : EntryName) (loaded : Loaded) (others : Nat → Nat) (depth : Nat)
  | unload (name : EntryName)

def Call.name : Call → EntryName
  | .load name _ => name
  | .reload name _ _ _ => name
  | .unload name => name

/-- The cache, and the names that have been loaded with data and not been
unloaded since. -/
structure Cached where
  heap : Heap
  known : List EntryName
  deriving DecidableEq

def Cached.init : Cached := ⟨CacheHandler.init, []⟩

def knownAfter (known : List EntryName) : Call → List EntryName
  | .load name loaded =>
    if loaded.any = none then known else name :: known
  | .reload name loaded _ _ =>
    if loaded.any = none then known else name :: known
  | .unload name => known.filter (· ≠ name)

def callHeap (heap : Heap) : Call → Option Heap
  | .load name loaded => CacheHandler.load heap name loaded
  | .reload name loaded others depth =>
    CacheHandler.reload others depth heap name loaded
  | .unload name => some (CacheHandler.unload heap name)

def Cached.step (s : Cached) (call : Call) : Option Cached :=
  (callHeap s.heap call).map fun heap => ⟨heap, knownAfter s.known call⟩

/-- `Get` shows the same Anything, and the same behind it. -/
def SameShown (heap heap' : Heap) (name : EntryName) : Prop :=
  get heap' name = get heap name ∧
    ∀ place, Reaches heap (get heap name) place → heap'[place]? = heap[place]?

/-- `Get` finds the names that are known. -/
def Agrees (s : Cached) : Prop := ∀ name, get s.heap name ≠ none ↔ name ∈ s.known

structure MapCall (s : Cached) (call : Call) (after : Cached) : Prop where
  agrees : Agrees after
  others : ∀ name, name ≠ call.name → SameShown s.heap after.heap name

/-- Nothing that is seen behind the name is seen behind another one. -/
def Unshared (heap : Heap) (name : EntryName) : Prop :=
  ∀ other, other ≠ name → ∀ place, Reaches heap (get heap other) place →
    ¬ Reaches heap (get heap name) place

/-- Data is loaded under names that are not empty, it is merged into an entry
that shares nothing, and an entry is unloaded under a plain name. -/
def Orderly (s : Cached) : Call → Prop
  | .load name loaded => loaded.any = none ∨ name.Named
  | .reload name loaded _ _ =>
    loaded.any = none ∨ name.Named ∧ Unshared s.heap name
  | .unload name => get s.heap name = none ∨ name.Plain

variable {heap heap' : Heap} {name other : EntryName}

theorem CacheOk.reached (ok : CacheOk heap) {place : Nat}
    (reaches : Reaches heap (get heap name) place) :
    Outside heap place ∧ place < heap.length :=
  reaches.inside ok.closed (ok.get_inside name)

theorem Effect.shown (effect : Effect heap heap' name) (ok : CacheOk heap)
    (untouched : Untouched heap heap') (different : other ≠ name) :
    SameShown heap heap' other := by
  refine ⟨effect.others other different, ?_⟩
  intro place reaches
  have there := ok.reached reaches
  exact untouched place there.2 there.1

theorem SameShown.reaches (same : SameShown heap heap' name) {place : Nat} :
    Reaches heap' (get heap' name) place ↔ Reaches heap (get heap name) place := by
  rw [same.1]
  constructor
  · rintro ⟨root, held, path⟩
    induction path with
    | refl => exact ⟨root, held, .refl⟩
    | tail _ holds ih =>
      rcases holds with ⟨impl, found, member⟩
      rw [same.2 _ ih] at found
      exact ih.step found member
  · rintro ⟨root, held, path⟩
    induction path with
    | refl => exact ⟨root, held, .refl⟩
    | tail before holds ih =>
      rcases holds with ⟨impl, found, member⟩
      rw [← same.2 _ ⟨root, held, before⟩] at found
      exact ih.step found member

theorem SameShown.trans {heap₂ : Heap} (first : SameShown heap heap' name)
    (second : SameShown heap' heap₂ name) : SameShown heap heap₂ name := by
  refine ⟨second.1.trans first.1, ?_⟩
  intro place reaches
  rw [second.2 place (first.reaches.mpr reaches), first.2 place reaches]

theorem SameShown.refl (heap : Heap) (name : EntryName) : SameShown heap heap name :=
  ⟨rfl, fun _ _ => rfl⟩

/-- What a call does when `Get` finds something under its name afterwards
or nothing, as the names that are known tell. -/
theorem agrees_of_get {s : Cached} {known : List EntryName} (agrees : Agrees s)
    (others : ∀ other, other ≠ name →
      get heap' other = get s.heap other ∧ (other ∈ known ↔ other ∈ s.known))
    (mine : get heap' name ≠ none ↔ name ∈ known) :
    Agrees ⟨heap', known⟩ := by
  intro other
  by_cases same : other = name
  · rw [same]
    exact mine
  · rcases others other same with ⟨shown, listed⟩
    rw [shown, listed]
    exact agrees other

structure Consistent (s : Cached) : Prop where
  ok : CacheOk s.heap
  agrees : Agrees s

/-- What a call on a name does to a cache in order. -/
structure Does (heap heap' : Heap) (name : EntryName) : Prop where
  ok : CacheOk heap'
  others : ∀ other, other ≠ name → SameShown heap heap' other

theorem Does.trans {heap₂ : Heap} (first : Does heap heap' name)
    (second : Does heap' heap₂ name) : Does heap heap₂ name :=
  ⟨second.ok, fun other different =>
    (first.others other different).trans (second.others other different)⟩

theorem Effect.does (effect : Effect heap heap' name) (ok : CacheOk heap)
    (untouched : Untouched heap heap') : Does heap heap' name :=
  ⟨effect.ok, fun _ different => effect.shown ok untouched different⟩

theorem Grown.same (grown : Grown heap heap') (ok : CacheOk heap)
    (name : EntryName) : SameShown heap heap' name := by
  refine ⟨grown.shown name, ?_⟩
  intro place reaches
  have there := ok.reached reaches
  exact grown.untouched place there.2 there.1

theorem Grown.does (grown : Grown heap heap') (ok : CacheOk heap)
    (name : EntryName) : Does heap heap' name :=
  ⟨grown.ok, fun other _ => grown.same ok other⟩

section

variable (ok : CacheOk heap)
include ok

theorem store_does {toCache : Handle}
    (notNull : toCache ≠ none) (inside : Inside (Outside heap) heap toCache) (name : EntryName) :
    Does heap (store heap name toCache) name ∧
      (name.Named → get (store heap name toCache) name = toCache) := by
  rcases store_effect ok notNull inside name with ⟨effect, untouched, shown⟩
  exact ⟨effect.does ok untouched, shown⟩

theorem load_does {loaded : Loaded} (orderly : loaded.any = none ∨ name.Named)
    (done : load heap name loaded = some heap') :
    Does heap heap' name ∧ (get heap' name ≠ none ↔ get heap name ≠ none ∨ loaded.any ≠ none) := by
  rw [load] at done
  split at done
  · rename_i known
    cases done
    have found := (isLoaded_iff ok name).mp known
    refine ⟨⟨ok, fun other _ => .refl heap other⟩, ?_⟩
    exact ⟨Or.inl, fun _ => found⟩
  · rename_i unknown
    have absent : get heap name = none := by
      by_contra found
      exact unknown ((isLoaded_iff ok name).mpr found)
    split at done
    · rename_i fits
      rcases ok.append fits with ⟨grown, inside⟩
      split at done
      · rename_i null
        cases done
        refine ⟨grown.does ok name, ?_⟩
        rw [grown.shown name, null]
        simp
      · rename_i notNull
        cases done
        rcases store_does grown.ok notNull inside name with ⟨does, shown⟩
        refine ⟨(grown.does ok name).trans does, ?_⟩
        rw [shown (orderly.resolve_left notNull)]
        exact ⟨Or.inr, fun _ => notNull⟩
    · cases done

theorem reload_does {loaded : Loaded} {others : Nat → Nat} {depth : Nat}
    (orderly : loaded.any = none ∨ name.Named ∧ Unshared heap name)
    (done : reload others depth heap name loaded = some heap') :
    Does heap heap' name ∧ (get heap' name ≠ none ↔ get heap name ≠ none ∨ loaded.any ≠ none) := by
  rw [reload] at done
  split at done
  · rename_i fits
    rcases ok.append fits with ⟨grown, inside⟩
    by_cases null : loaded.any = none
    · rw [reloadSection, if_pos null] at done
      cases done
      refine ⟨grown.does ok name, ?_⟩
      rw [grown.shown name, null]
      simp
    · rcases orderly.resolve_left null with ⟨named, unshared⟩
      cases found : get (heap ++ loaded.objects) name with
      | none =>
        rw [reloadSection_new grown.ok null found] at done
        cases done
        rcases store_does grown.ok null inside name with ⟨does, shown⟩
        refine ⟨(grown.does ok name).trans does, ?_⟩
        rw [shown named]
        exact ⟨Or.inr, fun _ => null⟩
      | some entry =>
        rcases keptAt_of_get grown.ok found with ⟨ref, kept⟩
        rw [reloadSection_loaded grown.ok null kept found] at done
        rcases merge_effect grown.ok kept found null done with ⟨effect, shown⟩
        refine ⟨(grown.does ok name).trans ⟨effect.ok, ?_⟩, ?_⟩
        · intro other different
          refine ⟨effect.others other different, ?_⟩
          apply merge_unshared grown.ok kept found null done (grown.ok.get_inside other)
          intro place reaches mine
          exact unshared other different place ((grown.same ok other).reaches.mp reaches)
            ((grown.same ok name).reaches.mp mine)
        · exact ⟨fun _ => Or.inr null, fun _ => shown⟩
  · cases done

theorem unload_does (orderly : get heap name = none ∨ name.Plain) :
    Does heap (unload heap name) name ∧ get (unload heap name) name = none := by
  rw [unload]
  cases found : get heap name with
  | none =>
    have unloaded : ¬ isLoaded heap name = true := by
      rw [isLoaded_iff ok]
      exact not_not.mpr found
    rw [if_neg unloaded]
    exact ⟨⟨ok, fun other _ => .refl heap other⟩, found⟩
  | some entry =>
    have loaded : isLoaded heap name = true := by
      rw [isLoaded_iff ok, found]
      exact nofun
    rw [if_pos loaded]
    rcases keptAt_of_get ok found with ⟨ref, kept⟩
    have plain : name.Plain := by
      rcases orderly with absent | plain
      · rw [found] at absent
        cases absent
      · exact plain
    rcases unload_effect ok kept plain with ⟨effect, untouched, shown⟩
    exact ⟨effect.does ok untouched, shown⟩

end

theorem knownAfter_others (known : List EntryName) (call : Call) (different : other ≠ call.name) :
    other ∈ knownAfter known call ↔ other ∈ known := by
  cases call with
  | load name loaded =>
    have apart : other ≠ name := different
    rw [knownAfter]
    split
    · rfl
    · rw [mem_cons, or_iff_right apart]
  | reload name loaded others depth =>
    have apart : other ≠ name := different
    rw [knownAfter]
    split
    · rfl
    · rw [mem_cons, or_iff_right apart]
  | unload name =>
    have apart : other ≠ name := different
    rw [knownAfter, mem_filter, and_iff_left (by simpa using apart)]

theorem knownAfter_loaded {known : List EntryName} {loaded : Loaded}
    {found : Prop} (agrees : found ↔ name ∈ known) :
    name ∈ (if loaded.any = none then known else name :: known) ↔ found ∨ loaded.any ≠ none := by
  by_cases null : loaded.any = none
  · rw [if_pos null, agrees]
    simp [null]
  · rw [if_neg null]
    exact iff_of_true mem_cons_self (Or.inr null)

theorem step_mapCall {s after : Cached} {call : Call}
    (consistent : Consistent s) (orderly : Orderly s call) (steps : s.step call = some after) :
    Consistent after ∧ MapCall s call after := by
  rcases Option.map_eq_some_iff.mp steps with ⟨heap, called, rfl⟩
  have both : Does s.heap heap call.name ∧
      (get heap call.name ≠ none ↔ call.name ∈ knownAfter s.known call) := by
    cases call with
    | load name loaded =>
      have does := load_does consistent.ok orderly called
      refine ⟨does.1, does.2.trans ?_⟩
      exact (knownAfter_loaded (consistent.agrees name)).symm
    | reload name loaded others depth =>
      have does := reload_does consistent.ok orderly called
      refine ⟨does.1, does.2.trans ?_⟩
      exact (knownAfter_loaded (consistent.agrees name)).symm
    | unload name =>
      cases called
      have does := unload_does consistent.ok orderly
      refine ⟨does.1, iff_of_false (not_not.mpr does.2) ?_⟩
      intro member
      simpa [Call.name] using (mem_filter.mp member).2
  rcases both with ⟨does, mine⟩
  have agrees : Agrees ⟨heap, knownAfter s.known call⟩ := by
    apply agrees_of_get consistent.agrees ?_ mine
    intro other different
    exact ⟨(does.others other different).1, knownAfter_others s.known call different⟩
  exact ⟨⟨does.ok, agrees⟩, agrees, does.others⟩

theorem init_consistent : Consistent Cached.init := by
  refine ⟨init_ok, ?_⟩
  intro name
  have absent : get Cached.init.heap name = none := by
    rw [Option.eq_none_iff_forall_ne_some]
    intro entry found
    rcases (get_eq_some_iff init_ok name entry).mp found with ⟨-, place, among, -⟩
    cases among
  rw [absent]
  exact ⟨fun found => absurd rfl found, fun member => nomatch member⟩

/-- In a run whose calls meet the condition the cache is a map. -/
theorem init_throughout_mapCall (calls : List Call)
    (orderly : Along Cached.step Orderly Cached.init calls) :
    Throughout Cached.step MapCall Cached.init calls := by
  have keeps : ∀ s call after, Consistent s → Orderly s call →
      Cached.step s call = some after → Consistent after ∧ MapCall s call after :=
    fun _ _ _ consistent meets steps => step_mapCall consistent meets steps
  exact throughout_of_along keeps init_consistent orderly

theorem unshared_of_alone {s : Cached} (consistent : Consistent s)
    (alone : ∀ other ∈ s.known, other = name) : Unshared s.heap name := by
  intro other different place reaches
  have absent : get s.heap other = none := by
    by_contra found
    exact different (alone other ((consistent.agrees other).mp found))
  rw [absent] at reaches
  rcases reaches with ⟨root, same, -⟩
  cases same

private def oneSlot (place : Nat) (key value : Bytes) : Loaded :=
  ⟨[.array [(key, some (place + 1))], .charPtr value], some place⟩

private def roleName : EntryName where
  group := lit "Role"
  key := lit "Guest"
  groupEnds := by decide
  keyEnds := by decide

private def mergedRun : List Call :=
  [.load roleName (oneSlot 1 (lit "Timeout") (lit "10")),
    .reload roleName (oneSlot 4 (lit "Start") (lit "Home")) (fun _ => 0) 3,
    .unload roleName]

private theorem mergedRun_orderly : Along Cached.step Orderly Cached.init mergedRun := by
  have loads : Orderly Cached.init
      (.load roleName (oneSlot 1 (lit "Timeout") (lit "10"))) :=
    Or.inr (by decide)
  refine ⟨loads, ?_⟩
  intro loaded steps
  have consistent := (step_mapCall init_consistent loads steps).1
  rcases Option.map_eq_some_iff.mp steps with ⟨heap, -, rfl⟩
  refine ⟨Or.inr ⟨by decide, unshared_of_alone consistent ?_⟩, ?_⟩
  · intro other member
    exact mem_singleton.mp member
  · intro reloaded _
    exact ⟨Or.inr (by decide), fun _ _ => trivial⟩

theorem init_throughout_mapCall_merged :
    (run Cached.step Cached.init mergedRun).isSome = true ∧
      Throughout Cached.step MapCall Cached.init mergedRun :=
  ⟨by decide +kernel, init_throughout_mapCall mergedRun mergedRun_orderly⟩

private def pageName : EntryName where
  group := lit "HTML"
  key := lit "index.html"
  groupEnds := by decide
  keyEnds := by decide

private def pageRun : List Call :=
  [.load pageName (oneSlot 1 (lit "Lang") (lit "D")), .unload pageName]

/-- A file name is no path: the page is found after it has been unloaded. -/
theorem not_init_throughout_mapCall :
    ¬ ∀ calls, Throughout Cached.step MapCall Cached.init calls := by
  intro all
  have whole : ∃ loaded unloaded,
      Cached.init.step (.load pageName (oneSlot 1 (lit "Lang") (lit "D"))) =
        some loaded ∧ loaded.step (.unload pageName) = some unloaded ∧
        get unloaded.heap pageName = some 1 ∧ unloaded.known = [] := by
    refine ⟨_, _, rfl, rfl, ?_, rfl⟩
    decide +kernel
  rcases whole with ⟨loaded, unloaded, first, second, found, known⟩
  have last := (((all pageRun) loaded first).2 unloaded second).1
  have listed := (last.agrees pageName).mp (by rw [found]; exact nofun)
  rw [known] at listed
  cases listed

end Coast.CacheHandler
