import Coast.Base.AnyRegion
import Coast.Base.DeepCloneRuns
import Coast.Library.Runs

/-!
# The graph of a clone

The clone is isomorphic to its source and made of new implementations, so that
writing through it leaves the source as it is.
-/

namespace Coast

open List Option

theorem cloneSlots_mono {deepClone deeper : Handle → CloneState → Option (Handle × CloneState)}
    (mono : ∀ {handle : Handle} {st : CloneState}
      {result : Handle × CloneState},
      deepClone handle st = some result → deeper handle st = some result)
    {pImpl : Nat} {slots : Slots Handle} {st st' : CloneState}
    (looped : cloneSlots deepClone pImpl slots st = some st') :
    cloneSlots deeper pImpl slots st = some st' := by
  induction slots generalizing st with
  | nil => exact looped
  | cons slot slots ih =>
    rw [cloneSlots] at looped
    rcases bind_eq_some_iff.mp looped with ⟨result, called, rest⟩
    rw [cloneSlots, mono called]
    exact ih rest

theorem doDeepClone_mono {deepClone deeper : Handle → CloneState → Option (Handle × CloneState)}
    (mono : ∀ {handle : Handle} {st : CloneState}
      {result : Handle × CloneState},
      deepClone handle st = some result → deeper handle st = some result)
    {impl : AnyImpl} {pObj : Nat} {st : CloneState}
    {result : Handle × CloneState}
    (called : doDeepClone deepClone impl pObj st = some result) :
    doDeepClone deeper impl pObj st = some result := by
  cases impl with
  | array slots =>
    rcases map_eq_some_iff.mp called with ⟨st', looped, same⟩
    rw [doDeepClone, cloneSlots_mono mono looped, ← same]
    rfl
  | _ => exact called

theorem deepClone_succ {refCount : Nat → Nat} {fuel : Nat} :
    ∀ {handle : Handle} {st : CloneState} {result : Handle × CloneState},
      deepClone refCount fuel handle st = some result →
        deepClone refCount (fuel + 1) handle st = some result := by
  induction fuel with
  | zero =>
    intro handle st result called
    cases handle with
    | none => exact called
    | some place => cases called
  | succ fuel ih =>
    intro handle st result called
    cases handle with
    | none => exact called
    | some place =>
      rcases eq_none_or_eq_some st.heap[place]? with missing | ⟨impl, seen⟩
      · rw [deepClone, missing] at called
        cases called
      by_cases several : 1 < refCount place
      · rcases eq_none_or_eq_some
            (st.xreftable.lookup (thisToHex place)) with
          entry | ⟨pObj, entry⟩
        · rw [deepClone_entered seen several entry] at called ⊢
          exact doDeepClone_mono ih called
        · rw [deepClone_known seen several entry] at called ⊢
          exact called
      · rw [deepClone_alone seen several] at called ⊢
        exact doDeepClone_mono ih called

theorem deepClone_deeper {refCount : Nat → Nat} {fuel : Nat}
    {handle : Handle} {st : CloneState} {result : Handle × CloneState}
    (called : deepClone refCount fuel handle st = some result) (more : Nat) :
    deepClone refCount (fuel + more) handle st = some result := by
  induction more with
  | zero => exact called
  | succ more ih => exact deepClone_succ ih

variable {graph : AnyGraph} {pairs : Nat → Nat → Prop} {st : CloneState} {clone : Handle}

theorem Copied.withoutHandles {impl copy : AnyImpl} (copied : Copied pairs impl copy) :
    copy.withoutHandles = impl.withoutHandles := by
  cases impl with
  | array slots =>
    rcases copied with ⟨copies, rfl, each⟩
    have names : copies.map (fun slot => (slot.1, (none : Handle))) =
        slots.map fun slot => (slot.1, none) := by
      induction each with
      | nil => rfl
      | cons first _ ih =>
        rw [map_cons, map_cons, ih, first.1]
    rw [AnyImpl.withoutHandles, AnyImpl.withoutHandles, names]
  | _ => rw [copied]

theorem Copied.handles {impl copy : AnyImpl} (copied : Copied pairs impl copy) (i : Nat) :
    Option.Rel pairs (impl.handles[i]?).join (copy.handles[i]?).join := by
  cases impl with
  | array slots =>
    rcases copied with ⟨copies, rfl, each⟩
    unfold AnyImpl.handles
    induction each generalizing i with
    | nil => exact .none
    | cons first _ ih =>
      cases i with
      | zero => exact first.2
      | succ i => exact ih i
  | _ =>
    rw [copied]
    exact .none

/-- No clone is still growing. -/
abbrev Finished (graph : AnyGraph) (pairs : Nat → Nat → Prop) (st : CloneState) : Prop :=
  Cloning graph pairs (fun _ => False) st

theorem Finished.copied (finished : Finished graph pairs st)
    {place copy : Nat} (pair : pairs place copy) :
    ∃ impl cloned, graph.heap[place]? = some impl ∧
      st.heap[copy]? = some cloned ∧ Copied pairs impl cloned := by
  have inside := (finished.bounds pair).1
  have found := getElem?_eq_getElem inside
  rcases finished.complete pair id found with ⟨cloned, seen, copied⟩
  exact ⟨_, cloned, found, seen, copied⟩

theorem slot_of_impl {heap : Heap} {root : Handle} {place : Nat}
    {impl : AnyImpl} (found : heap[place]? = some impl) (i : Nat) :
    (heap.graph root).slot place i = (impl.handles[i]?).join := by
  change (heap[place]?.bind fun impl => (impl.handles[i]?).join) = _
  rw [found, bind_some]

theorem label_of_impl {heap : Heap} {root : Handle} {place : Nat}
    {impl : AnyImpl} (found : heap[place]? = some impl) :
    (heap.graph root).label place = some impl.withoutHandles := by
  change heap[place]?.map AnyImpl.withoutHandles = _
  rw [found, map_some]

theorem Finished.slot (finished : Finished graph pairs st) {place copy : Nat}
    (pair : pairs place copy) (clone : Handle) (i : Nat) :
    Option.Rel pairs (graph.source.slot place i) ((st.heap.graph clone).slot copy i) := by
  rcases finished.copied pair with ⟨impl, cloned, found, seen, copied⟩
  rw [AnyGraph.source, slot_of_impl found, slot_of_impl seen]
  exact copied.handles i

private theorem pair_of_rel {handle copy : Handle} {place other : Nat}
    (related : Option.Rel pairs handle copy) (atLeft : handle = some place)
    (atRight : copy = some other) : pairs place other := by
  subst atLeft atRight
  cases related with
  | some pair => exact pair

private theorem isSome_of_rel {handle copy : Handle} (related : Option.Rel pairs handle copy) :
    handle.isSome = copy.isSome := by
  cases related <;> rfl

theorem Finished.pair_of_corresponds (finished : Finished graph pairs st)
    (root : Option.Rel pairs graph.root clone) {place copy : Nat}
    (corresponds : graph.source.Corresponds (st.heap.graph clone) place
      copy) : pairs place copy := by
  induction corresponds with
  | root atLeft atRight => exact pair_of_rel root atLeft atRight
  | slot _ atLeft atRight ih =>
    exact pair_of_rel (finished.slot ih clone _) atLeft atRight

theorem Finished.matches (finished : Finished graph pairs st)
    (root : Option.Rel pairs graph.root clone) :
    graph.source.Matches (st.heap.graph clone) where
  root := isSome_of_rel root
  slot corresponds i := isSome_of_rel
    (finished.slot (finished.pair_of_corresponds root corresponds) clone i)

/-- What a clone is: the source is still there, and the clone has the same
graph, made of new implementations. -/
structure IsClone (graph : AnyGraph) (clone : Handle) (st : CloneState) : Prop where
  source : graph.heap <+: st.heap
  fresh : ∀ place, (st.heap.graph clone).Reaches place →
    graph.heap.length ≤ place ∧ place < st.heap.length
  isomorphic : ∃ rename : Nat → Nat, graph.source.Isomorphism (st.heap.graph clone) rename

theorem Finished.isClone (finished : Finished graph pairs st)
    (root : Option.Rel pairs graph.root clone) :
    IsClone graph clone st where
  source := finished.source
  fresh place reaches := by
    rcases (finished.matches root).exists_original reaches with ⟨node, corresponds⟩
    exact (finished.bounds (finished.pair_of_corresponds root corresponds)).2
  isomorphic := by
    have pairOf := fun {place copy : Nat} =>
      @Finished.pair_of_corresponds graph pairs st clone finished root place copy
    rcases (finished.matches root).exists_isomorphism (fun corresponds => by
          rcases finished.copied (pairOf corresponds) with ⟨impl, cloned, found, seen, copied⟩
          rw [AnyGraph.source, label_of_impl found, label_of_impl seen, copied.withoutHandles])
        (fun shared corresponds other =>
          finished.counted (AnyGraph.one_lt_refCount shared) (pairOf corresponds) (pairOf other))
        (fun corresponds other =>
          finished.original (pairOf corresponds) (pairOf other)) with
      ⟨rename, isomorphism, -⟩
    exact ⟨rename, isomorphism⟩

theorem cloning_start (graph : AnyGraph) : Finished graph (fun _ _ => False) ⟨graph.heap, []⟩ where
  source := prefix_refl _
  bounds := nofun
  original := nofun
  counted := fun _ => nofun
  keysOk := ⟨nodup_nil, fun _ => nofun⟩
  table := by
    intro place copy _ _
    constructor
    · intro found
      unfold Slots.lookup Slots.findIndex at found
      split at found <;> cases found
    · exact nofun
  complete := nofun

/-- `DeepClone` of any graph returns, whatever is shared and wherever it goes
in a circle: from one more nested call than there are implementations on, the
result is always the same clone. -/
theorem deepClone_isClone (graph : AnyGraph) :
    ∃ clone st, (∀ fuel, graph.heap.length < fuel → graph.deepClone fuel = some (clone, st)) ∧
      IsClone graph clone st := by
  have descent : Descent graph (fun _ _ => False) [] graph.root :=
    ⟨fun _ atRoot => atRoot, nodup_nil, fun _ => nofun, fun _ => nofun⟩
  rcases deepClone_spec (graph.heap.length + 1) (Nat.lt_succ_self _)
      (cloning_start graph) descent with
    ⟨clone, st, pairs, called, cloned⟩
  refine ⟨clone, st, fun fuel enough => ?_, Finished.isClone cloned.cloning cloned.related⟩
  rcases Nat.exists_eq_add_of_le enough with ⟨more, rfl⟩
  exact deepClone_deeper called more

/-- An array that is its own slot, with a leaf that two slots share. -/
def circle : AnyGraph where
  heap := [.array [(lit "self", some 0), ([], some 1), ([], some 1)], .long 5]
  root := some 0
  others _ := 0
  rootInside := by decide
  slotsInside impl member place held := by
    rcases mem_pair.mp member with rfl | rfl
    · have cases : place = 0 ∨ place = 1 := by
        simpa [AnyImpl.handles] using held
      rcases cases with rfl | rfl <;> decide
    · cases held
  keysOk slots member := by
    rcases mem_pair.mp member with same | same
    · cases same
      exact ⟨by decide, by decide⟩
    · cases same
  addressable := by decide

example :
    (circle.deepClone 3).map (fun result => (result.1, result.2.heap)) =
      some (some 2, circle.heap ++
        [.array [(lit "self", some 2), ([], some 3), ([], some 3)], .long 5]) := by
  decide +kernel

/-! ## Writing through a clone -/

/-- A slot of an array is written, or an implementation is made. -/
inductive HeapWrite where
  | update (place : Nat) (write : Slots Handle → Slots Handle)
  | new (impl : AnyImpl)

namespace HeapWrite

def apply (heap : Heap) : HeapWrite → Heap
  | .update place write => heap.update place write
  | .new impl => heap ++ [impl]

/-- Who writes has the variable `any` only, and what has been made since
there were so many implementations. -/
def Through (any : Handle) (start : Nat) (heap : Heap) : HeapWrite → Prop
  | .update place write => (start ≤ place ∨ heap.Reaches any place) ∧
      ∀ slot ∈ write (heap.arrayAt place), Known heap slot.2
  | .new impl => ∀ other ∈ impl.handles, Known heap other
where
  Known (heap : Heap) (other : Handle) : Prop :=
    ∀ held, other = some held → start ≤ held ∧ held < heap.length ∨ heap.Reaches any held

end HeapWrite

section

variable {graph : AnyGraph} {clone : Handle} {st : CloneState}

/-- What the clone is made of, and what is made later. -/
def OfClone (clone : Handle) (st : CloneState) (place : Nat) : Prop :=
  (st.heap.graph clone).Reaches place ∨ st.heap.length ≤ place

/-- The source is as it was, and the clone reaches nothing of it. -/
structure Isolated (graph : AnyGraph) (clone : Handle) (st : CloneState) (heap : Heap) : Prop where
  source : graph.heap <+: heap
  grows : st.heap.length ≤ heap.length
  closed : Heap.Closed (OfClone clone st) heap
  root : Heap.Inside (OfClone clone st) heap clone

theorem IsClone.isolated (isClone : IsClone graph clone st) : Isolated graph clone st st.heap where
  source := isClone.source
  grows := Nat.le_refl _
  closed := by
    rintro place impl (reached | behind) found other member held rfl
    · rcases mem_iff_getElem?.mp member with ⟨i, at_⟩
      have inner : (st.heap.graph clone).Reaches held := by
        have linked : (st.heap.graph clone).slot place i = some held := by
          simp [Heap.graph, found, at_]
        exact reached.slot linked
      exact ⟨.inl inner, (isClone.fresh held inner).2⟩
    · have known := (List.getElem?_eq_some_iff.mp found).1
      omega
  root place isRoot := by
    have reached : (st.heap.graph clone).Reaches place := .root isRoot
    exact ⟨.inl reached, (isClone.fresh place reached).2⟩

theorem Isolated.apply {heap : Heap} (isClone : IsClone graph clone st)
    (isolated : Isolated graph clone st heap) {write : HeapWrite}
    (through : write.Through clone st.heap.length heap) :
    Isolated graph clone st (write.apply heap) := by
  have known : ∀ {other}, HeapWrite.Through.Known clone st.heap.length heap other →
      Heap.Inside (OfClone clone st) heap other := by
    intro other known held same
    rcases known held same with later | reached
    · exact ⟨.inr later.1, later.2⟩
    · exact reached.inside isolated.closed isolated.root
  cases write with
  | update place write =>
    have inside : OfClone clone st place :=
      through.1.elim .inr fun reached => (reached.inside isolated.closed isolated.root).1
    have behind : graph.heap.length ≤ place := by
      have longer := isClone.source.length_le
      rcases inside with reached | later
      · exact (isClone.fresh place reached).1
      · omega
    refine ⟨?_, by simpa [HeapWrite.apply] using isolated.grows, ?_, ?_⟩
    · refine prefix_iff_getElem?.mpr fun i short => ?_
      rw [HeapWrite.apply, Heap.update_elsewhere heap write (by omega)]
      exact prefix_iff_getElem?.mp isolated.source i short
    · exact isolated.closed.update fun slot member => known (through.2 slot member)
    · exact isolated.root.grow (by simp [HeapWrite.apply])
  | new impl =>
    refine ⟨isolated.source.trans (prefix_append _ _), ?_, ?_, ?_⟩
    · exact Nat.le_trans isolated.grows (by simp [HeapWrite.apply])
    · apply isolated.closed.append
      intro made isNew other member
      cases mem_singleton.mp isNew
      exact (known (through other member)).grow (by simp)
    · exact isolated.root.grow (by simp [HeapWrite.apply])

end

/-- Whatever is written through a clone, the source stays as it is. -/
theorem deepClone_isolated (graph : AnyGraph) : ∃ clone st,
    (∀ fuel, graph.heap.length < fuel → graph.deepClone fuel = some (clone, st)) ∧
      ∀ (writes : List HeapWrite) (last : Heap),
        Runs.Along (fun heap write => some (HeapWrite.apply heap write))
          (HeapWrite.Through clone st.heap.length) st.heap writes →
        Runs.run (fun heap write => some (HeapWrite.apply heap write)) st.heap writes = some last →
        graph.heap <+: last := by
  rcases deepClone_isClone graph with ⟨clone, st, called, isClone⟩
  refine ⟨clone, st, called, fun writes last along runs => ?_⟩
  refine (Runs.run_invariant ?_ isClone.isolated along runs).source
  rintro heap write after isolated through steps
  cases steps
  exact isolated.apply isClone through

private def circleWrites : List HeapWrite := [.new (.long 6), .update 2 fun _ => [([], some 4)]]

/-- The clone of the circle is made shorter, and the circle stays. -/
theorem deepClone_isolated_circle : ∃ clone st last, circle.deepClone 3 = some (clone, st) ∧
    Runs.Along (fun heap write => some (HeapWrite.apply heap write))
      (HeapWrite.Through clone st.heap.length) st.heap circleWrites ∧
    Runs.run (fun heap write => some (HeapWrite.apply heap write)) st.heap circleWrites =
      some last ∧
    last[2]? = some (.array [([], some 4)]) ∧ circle.heap <+: last := by
  rcases deepClone_isolated circle with ⟨clone, st, called, isolated⟩
  have found := called 3 (by decide)
  have shown : (circle.deepClone 3).map (fun result => (result.1, result.2.heap)) =
      some (some 2, circle.heap ++
        [.array [(lit "self", some 2), ([], some 3), ([], some 3)], .long 5]) := by
    decide +kernel
  rw [found] at shown
  obtain ⟨rfl, heap⟩ := Prod.mk.inj (Option.some.inj shown)
  have through : Runs.Along (fun heap write => some (HeapWrite.apply heap write))
      (HeapWrite.Through (some 2) st.heap.length) st.heap circleWrites := by
    rw [heap]
    refine .cons nofun rfl (.cons ⟨.inr ?_, ?_⟩ rfl trivial)
    · exact ⟨2, rfl, .refl⟩
    · intro slot member held same
      cases mem_singleton.mp member
      cases same
      exact .inl ⟨by decide, by decide⟩
  refine ⟨_, st, _, found, through, rfl, ?_, isolated circleWrites _ through rfl⟩
  rw [heap]
  rfl

end Coast
