import Coast.Wdbase.CacheSections
import Coast.Library.Runs

/-!
# Loading by many threads

The test whether an entry is loaded, the policy and the section that has the
mutex are steps of their own.  Who has got an Anything out of the cache goes
on reading it.
-/

namespace Coast.CacheHandler

open Heap Runs

/-- Where a thread is in its call. -/
inductive Phase where
  | idle
  /-- `Load` has found no entry. -/
  | loading (name : EntryName)
  /-- `Load` is to have the mutex. -/
  | storing (name : EntryName) (toCache : Handle)
  /-- `Load` is to return. -/
  | getting (name : EntryName)
  /-- `Reload` is to have the mutex. -/
  | merging (name : EntryName) (toCache : Handle)
  /-- `Unload` has found an entry. -/
  | unloading (name : EntryName)
  deriving DecidableEq

/-- What a thread does next. -/
inductive Event where
  | startLoad (name : EntryName)
  | policyLoad (loaded : Loaded)
  | store
  | get
  | startReload (name : EntryName) (loaded : Loaded)
  | merge (others : Nat → Nat) (depth : Nat)
  | startUnload (name : EntryName)
  | clean

/-- The cache, the threads that use it, and what they were given. -/
structure Loaders where
  heap : Heap
  phase : Nat → Phase
  /-- what has been returned and not been unloaded since -/
  handedOut : List (EntryName × Nat)

namespace Loaders

def init : Loaders := ⟨CacheHandler.init, fun _ => .idle, []⟩

def setPhase (s : Loaders) (thread : Nat) (phase : Phase) : Loaders :=
  { s with phase := Function.update s.phase thread phase }

def setHeap (s : Loaders) (heap : Heap) : Loaders := { s with heap := heap }

def handOut (s : Loaders) (name : EntryName) : Loaders :=
  { s with
    handedOut :=
      match CacheHandler.get s.heap name with
      | none => s.handedOut
      | some entry => (name, entry) :: s.handedOut }

def giveUp (s : Loaders) (name : EntryName) : Loaders :=
  { s with handedOut := s.handedOut.filter fun entry => entry.1 ≠ name }

/-- One step of a thread, by where it is. -/
def stepIn (s : Loaders) (thread : Nat) : Phase → Event → Option Loaders
  | .idle, .startLoad name =>
    some (s.setPhase thread (if isLoaded s.heap name then .getting name else .loading name))
  | .loading name, .policyLoad loaded =>
    if Fits s.heap loaded then
      some ((s.setHeap (s.heap ++ loaded.objects)).setPhase thread
        (if loaded.any = none then .getting name else .storing name loaded.any))
    else none
  | .storing name toCache, .store =>
    some ((s.setHeap (CacheHandler.store s.heap name toCache)).setPhase thread (.getting name))
  | .getting name, .get => some ((s.handOut name).setPhase thread .idle)
  | .idle, .startReload name loaded =>
    if Fits s.heap loaded then
      some ((s.setHeap (s.heap ++ loaded.objects)).setPhase thread (.merging name loaded.any))
    else none
  | .merging name toCache, .merge others depth =>
    (reloadSection others depth s.heap name toCache).map fun heap =>
      ((s.setHeap heap).handOut name).setPhase thread .idle
  | .idle, .startUnload name =>
    some (s.setPhase thread (if isLoaded s.heap name then .unloading name else .idle))
  | .unloading name, .clean =>
    some (((s.setHeap (unloadSection s.heap name)).giveUp name).setPhase thread .idle)
  | _, _ => none

def step (s : Loaders) (action : Nat × Event) : Option Loaders :=
  s.stepIn action.1 (s.phase action.1) action.2

def Valid (s : Loaders) : Prop :=
  ∀ entry ∈ s.handedOut, CacheHandler.get s.heap entry.1 = some entry.2

/-- A section does not replace or release what is kept: a `Load` stores where
no entry is, a `Reload` merges into the same implementation, and the path of
an `Unload` is one of a plain name or leads nowhere. -/
def CarefulIn (heap : Heap) : Phase → Event → Prop
  | .storing name toCache, .store =>
    CacheHandler.get heap name = none ∨ CacheHandler.get heap name = toCache
  | .merging name toCache, .merge _ _ =>
    toCache = none ∨ CacheHandler.get heap name = none ∨
      KeepsImpl heap (CacheHandler.get heap name) toCache
  | .unloading name, .clean =>
    name.Plain ∨ Anything.lookupPath heap fCache name.path (ch '.') (ch ':') = (heap, none)
  | _, _ => True

def Careful (s : Loaders) (action : Nat × Event) : Prop :=
  CarefulIn s.heap (s.phase action.1) action.2

/-! ## What the steps keep -/

variable {s after : Loaders} {heap heap' : Heap} {name : EntryName}

def PhaseOk (heap : Heap) : Phase → Prop
  | .storing _ toCache =>
    toCache ≠ none ∧ Inside (Outside heap) heap toCache
  | .merging _ toCache => Inside (Outside heap) heap toCache
  | _ => True

theorem PhaseOk.grow {phase : Phase} (phaseOk : PhaseOk heap phase)
    (outside : ∀ any, Inside (Outside heap) heap any →
      Inside (Outside heap') heap' any) : PhaseOk heap' phase := by
  cases phase with
  | storing name toCache =>
    exact ⟨phaseOk.1, outside toCache phaseOk.2⟩
  | merging name toCache => exact outside toCache phaseOk
  | _ => trivial

/-- The cache is in order, and everything handed out is still in it. -/
structure Inv (s : Loaders) : Prop where
  ok : CacheOk s.heap
  phases : ∀ thread, PhaseOk s.heap (s.phase thread)
  valid : Valid s

theorem init_inv : Inv init := ⟨init_ok, fun _ => trivial, fun _ member => nomatch member⟩

section

variable (inv : Inv s)
include inv

theorem Inv.setPhase (thread : Nat) {phase : Phase}
    (phaseOk : PhaseOk s.heap phase) : Inv (s.setPhase thread phase) := by
  refine ⟨inv.ok, ?_, inv.valid⟩
  intro other
  change PhaseOk s.heap (Function.update s.phase thread phase other)
  by_cases same : other = thread
  · rw [same, Function.update_self]
    exact phaseOk
  · rw [Function.update_of_ne same]
    exact inv.phases other

theorem Inv.setHeap (ok : CacheOk heap')
    (outside : ∀ any, Inside (Outside s.heap) s.heap any → Inside (Outside heap') heap' any)
    (kept : ∀ name entry, (name, entry) ∈ s.handedOut →
      CacheHandler.get heap' name = CacheHandler.get s.heap name) :
    Inv (s.setHeap heap') := by
  refine ⟨ok, fun thread => (inv.phases thread).grow outside, ?_⟩
  intro entry member
  have held := inv.valid entry member
  exact (kept entry.1 entry.2 member).trans held

theorem Inv.handOut (name : EntryName) : Inv (s.handOut name) := by
  refine ⟨inv.ok, inv.phases, ?_⟩
  intro entry member
  rw [Loaders.handOut] at member
  simp only at member
  split at member
  · exact inv.valid entry member
  · rename_i found
    rcases List.mem_cons.mp member with new | old
    · rw [new]
      exact found
    · exact inv.valid entry old

theorem Inv.append {loaded : Loaded} (fits : Fits s.heap loaded) :
    Inv (s.setHeap (s.heap ++ loaded.objects)) ∧
      Inside (Outside (s.heap ++ loaded.objects)) (s.heap ++ loaded.objects) loaded.any := by
  rcases inv.ok.append fits with ⟨grown, inside⟩
  exact ⟨inv.setHeap grown.ok grown.outside fun name _ _ => grown.shown name, inside⟩

theorem Inv.effect (effect : Effect s.heap heap' name)
    (mine : CacheHandler.get s.heap name = none ∨
      CacheHandler.get heap' name = CacheHandler.get s.heap name) :
    Inv (s.setHeap heap') := by
  apply inv.setHeap effect.ok effect.outside
  intro other entry member
  by_cases same : other = name
  · rw [same] at member ⊢
    rcases mine with absent | kept
    · have held := inv.valid _ member
      rw [absent] at held
      cases held
    · exact kept
  · exact effect.others other same

theorem Inv.store {toCache : Handle} (phaseOk : PhaseOk s.heap (.storing name toCache))
    (careful : CarefulIn s.heap (.storing name toCache) .store) :
    Inv (s.setHeap (CacheHandler.store s.heap name toCache)) := by
  rcases store_effect inv.ok phaseOk.1 phaseOk.2 name with ⟨effect, -, shown⟩
  apply inv.effect effect
  rcases careful with absent | same
  · exact Or.inl absent
  · right
    rcases Option.ne_none_iff_exists'.mp phaseOk.1 with ⟨entry, held⟩
    rw [held] at same shown ⊢
    have named := ((get_eq_some_iff inv.ok name entry).mp same).1
    rw [shown named, same]

theorem Inv.merge {toCache : Handle} {others : Nat → Nat}
    {depth : Nat} (phaseOk : PhaseOk s.heap (.merging name toCache))
    (careful : CarefulIn s.heap (.merging name toCache) (.merge others depth))
    (done : reloadSection others depth s.heap name toCache = some heap') :
    Inv (s.setHeap heap') := by
  by_cases null : toCache = none
  · rw [reloadSection, if_pos null] at done
    cases done
    exact inv
  · have careful := careful.resolve_left null
    cases found : CacheHandler.get s.heap name with
    | none =>
      rw [reloadSection_new inv.ok null found] at done
      cases done
      have stored := store_effect inv.ok null phaseOk name
      exact inv.effect stored.1 (Or.inl found)
    | some entry =>
      rw [found] at careful
      have keeps := careful.resolve_left (by simp)
      rw [← found] at keeps
      rcases keptAt_of_get inv.ok found with ⟨ref, kept⟩
      rw [reloadSection_loaded inv.ok null kept found] at done
      have effect := merge_effect inv.ok kept found null done
      exact inv.effect effect.1 (Or.inr (merge_keeps inv.ok kept found null keeps done))

theorem Inv.giveUp (name : EntryName) : Inv (s.giveUp name) :=
  ⟨inv.ok, inv.phases, fun entry member =>
    inv.valid entry (List.mem_filter.mp member).1⟩

theorem Inv.released (effect : Effect s.heap heap' name) : Inv ((s.setHeap heap').giveUp name) := by
  refine ⟨effect.ok, fun thread => (inv.phases thread).grow effect.outside, ?_⟩
  intro entry member
  rcases List.mem_filter.mp member with ⟨listed, different⟩
  exact (effect.others entry.1 (by simpa using different)).trans (inv.valid entry listed)

theorem Inv.clean (careful : CarefulIn s.heap (.unloading name) .clean) :
    Inv ((s.setHeap (unloadSection s.heap name)).giveUp name) := by
  have nowhere : Anything.lookupPath s.heap fCache name.path (ch '.')
      (ch ':') = (s.heap, none) → Inv ((s.setHeap (unloadSection s.heap name)).giveUp name) := by
    intro leads
    rw [unloadSection_nowhere leads]
    exact inv.giveUp name
  rcases careful with plain | leads
  · cases found : CacheHandler.get s.heap name with
    | none => exact nowhere (lookupPath_absent inv.ok plain found)
    | some entry =>
      rcases keptAt_of_get inv.ok found with ⟨ref, kept⟩
      exact inv.released (unload_effect inv.ok kept plain).1
  · exact nowhere leads

theorem step_inv {action : Nat × Event}
    (careful : Careful s action) (steps : step s action = some after) :
    Inv after := by
  obtain ⟨thread, event⟩ := action
  have phaseOk := inv.phases thread
  rw [Careful] at careful
  rw [step] at steps
  generalize s.phase thread = phase at phaseOk careful steps
  simp only at careful steps
  cases phase with
  | idle =>
    cases event with
    | startLoad name =>
      cases steps
      apply inv.setPhase
      split <;> trivial
    | startReload name loaded =>
      rw [stepIn] at steps
      split at steps
      · rename_i fits
        cases steps
        rcases inv.append fits with ⟨grown, inside⟩
        exact grown.setPhase thread inside
      · cases steps
    | startUnload name =>
      cases steps
      apply inv.setPhase
      split <;> trivial
    | _ => cases steps
  | loading name =>
    cases event with
    | policyLoad loaded =>
      rw [stepIn] at steps
      split at steps
      · rename_i fits
        cases steps
        rcases inv.append fits with ⟨grown, inside⟩
        apply grown.setPhase
        split
        · trivial
        · rename_i notNull
          exact ⟨notNull, inside⟩
      · cases steps
    | _ => cases steps
  | storing name toCache =>
    cases event with
    | store =>
      cases steps
      exact (inv.store phaseOk careful).setPhase thread trivial
    | _ => cases steps
  | getting name =>
    cases event with
    | get =>
      cases steps
      exact (inv.handOut name).setPhase thread trivial
    | _ => cases steps
  | merging name toCache =>
    cases event with
    | merge others depth =>
      rcases Option.map_eq_some_iff.mp steps with ⟨heap, done, rfl⟩
      exact ((inv.merge phaseOk careful done).handOut name).setPhase thread trivial
    | _ => cases steps
  | unloading name =>
    cases event with
    | clean =>
      cases steps
      exact (inv.clean careful).setPhase thread trivial
    | _ => cases steps

end

/-- In a run of careful steps nothing that has been handed out is replaced
or released. -/
theorem init_run_valid {actions : List (Nat × Event)} {last : Loaders}
    (careful : Along step Careful init actions)
    (runs : run step init actions = some last) : Valid last := by
  have keeps : ∀ s action after, Inv s → Careful s action →
      step s action = some after → Inv after :=
    fun _ _ _ inv meets steps => step_inv inv meets steps
  exact (run_invariant keeps init_inv careful runs).valid

private def pagesName : EntryName where
  group := lit "Pages"
  key := lit "Home"
  groupEnds := by decide
  keyEnds := by decide

private def emptyArray (place : Nat) : Loaded := ⟨[.array []], some place⟩

private def newsName : EntryName where
  group := lit "Pages"
  key := lit "News"
  groupEnds := by decide
  keyEnds := by decide

/-- Two threads load an entry each, then the first reloads its own while the
second unloads the other. -/
private def carefulThreads : List (Nat × Event) :=
  [(0, .startLoad pagesName), (1, .startLoad newsName),
    (0, .policyLoad (emptyArray 1)), (1, .policyLoad (emptyArray 2)),
    (1, .store), (0, .store), (0, .get), (1, .get),
    (0, .startReload pagesName (emptyArray 4)), (1, .startUnload newsName),
    (0, .merge id 2), (1, .clean)]

private theorem carefulThreads_careful : Along step Careful init carefulThreads := by
  refine .cons trivial rfl (.cons trivial rfl (.cons trivial rfl (.cons trivial rfl ?_)))
  refine .cons (Or.inl (by decide +kernel)) rfl (.cons (Or.inl (by decide +kernel)) rfl ?_)
  refine .cons trivial rfl (.cons trivial rfl (.cons trivial rfl (.cons trivial rfl ?_)))
  refine .cons (Or.inr (Or.inr (by decide +kernel))) rfl ?_
  exact .cons (Or.inl (by decide +kernel)) rfl trivial

theorem init_run_valid_loaded :
    ∃ last, run step init carefulThreads = some last ∧
      last.handedOut = [(pagesName, 1), (pagesName, 1)] ∧
      CacheHandler.get last.heap newsName = none ∧ Valid last := by
  refine ⟨_, rfl, ?_, ?_, init_run_valid carefulThreads_careful rfl⟩
  · decide +kernel
  · decide +kernel

/-- Both threads have found no entry when the first one stores. -/
private def twoLoaders : List (Nat × Event) :=
  [(0, .startLoad pagesName), (1, .startLoad pagesName),
    (0, .policyLoad (emptyArray 1)), (0, .store), (0, .get),
    (1, .policyLoad (emptyArray 3)), (1, .store)]

/-- What the first thread has got is replaced by the second one. -/
theorem not_init_run_valid : ¬ ∀ actions last, run step init actions = some last → Valid last := by
  intro all
  have held : ∃ last, run step init twoLoaders = some last ∧ (pagesName, 1) ∈ last.handedOut ∧
      CacheHandler.get last.heap pagesName = some 3 := by
    refine ⟨_, rfl, ?_, ?_⟩ <;> decide +kernel
  rcases held with ⟨last, runs, handed, found⟩
  have kept := all twoLoaders last runs (pagesName, 1) handed
  rw [found] at kept
  cases kept

end Loaders

end Coast.CacheHandler
