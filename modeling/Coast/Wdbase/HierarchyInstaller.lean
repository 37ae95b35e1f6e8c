import Coast.Base.AnyAccess
import Coast.Library.Pointers
import Mathlib.Order.Interval.Finset.Nat

/-!
# The installer of configuration hierarchies

A specification names objects under the objects that become their supers.  An
object that the registry does not have is cloned from its super.
-/

namespace Coast

open Pointers

/-- An object that is configured: its name, and from whom it inherits. -/
structure HierarchConfNamed where
  fName : Bytes
  fSuper : Option Nat
  deriving DecidableEq, Repr

/-- The objects by their address, and the table of a registry. -/
structure Registry where
  objects : List HierarchConfNamed
  table : Slots Nat
  valid : ∀ slot ∈ table, slot.2 < objects.length

namespace Registry

def getSuper (this : Registry) (o : Nat) : Option Nat :=
  this.objects[o]?.bind HierarchConfNamed.fSuper

def getName (this : Registry) (o : Nat) : Bytes :=
  (this.objects[o]?.map HierarchConfNamed.fName).getD []

def named (this : Registry) (name : Bytes) (o : Nat) : Option Unit :=
  if isEqual (this.getName o) name then some () else none

def hasSuper (this : Registry) (fuel : Nat) (super : Option Nat) (name : Bytes) : Option Bool :=
  (find this.getSuper (this.named name) fuel super).map Option.isSome

def doLookup (this : Registry) {α : Type} (own : Nat → Bytes → Option α)
    (fuel : Nat) (o : Nat) (key : Bytes) : Option (Option α) :=
  find this.getSuper (fun super => own super key) fuel (some o)

def setSuper (this : Registry) (leaf : Nat) (super : Option Nat) : Registry where
  objects := this.objects.modify leaf fun o => { o with fSuper := super }
  table := this.table
  valid := by simpa using this.valid

/-- `DoConfiguredClone` without a configuration. -/
def configuredClone (this : Registry) (super : Nat) (name : Bytes) : Registry where
  objects := this.objects ++ [⟨cstr name, some super⟩]
  table := this.table
  valid := by
    intro slot mem
    rw [List.length_append]
    exact Nat.lt_add_right 1 (this.valid slot mem)

/-- The name leads to the object now. -/
def registerObject (this : Registry) (name : Bytes) (o : Nat)
    (known : o < this.objects.length) : Registry where
  objects := this.objects
  table := this.table.setKey name o
  valid := by
    intro slot mem
    rcases Slots.mem_setKey slot mem with new | ⟨old, there, same⟩
    · rw [new]
      exact known
    · rw [← same]
      exact this.valid old there

/-- The object for a name, if there is one or a root to clone. -/
def getLeaf (this : Registry) (leafName : Bytes) (root : Option Nat) : Option Nat × Registry :=
  match this.table.lookup leafName, root with
  | some leaf, _ => (some leaf, this)
  | none, none => (none, this)
  | none, some root =>
    let leaf := this.objects.length
    let cloned := this.configuredClone root leafName
    if isEqual (this.getName root) leafName then (some leaf, cloned)
    else
      (some leaf, cloned.registerObject leafName leaf (by
        simp [cloned, leaf, configuredClone]))

/-- `InstallRoot`; without a result when the loop does not come to its end. -/
def installRoot (this : Registry) (fuel : Nat) (root : Option Nat)
    (name : Bytes) : Option Bool × Registry :=
  match root with
  | none => (some false, this)
  | some root =>
    ((this.hasSuper fuel (this.getSuper root) name).map (!·), this)

/-- A leaf is found or made, and inherits from the root. -/
def installLeaf (this : Registry) (leafName : Option Bytes)
    (root : Option Nat) (installSuccess : Option Bool) :
    Option Bool × Registry :=
  match leafName with
  | none => (installSuccess, this)
  | some leafName =>
    match this.getLeaf leafName root with
    | (none, this) => (installSuccess.map fun _ => false, this)
    | (some leaf, this) => (installSuccess, this.setSuper leaf root)

/-- `a && b`, when both have come to an end. -/
def both (a b : Option Bool) : Option Bool := a.bind fun a => b.map fun b => a && b

mutual

/-- The root of a tree is connected, then what is below it. -/
def installTree (fuel : Nat) : Anything → Option Nat → Bytes → Registry → Option Bool × Registry
  | .null, root, rootName, this => this.installRoot fuel root rootName
  | .array slots, root, rootName, this =>
    let (installSuccess, this) := this.installRoot fuel root rootName
    installSlots fuel slots root installSuccess this
  | tree, root, rootName, this =>
    let (installSuccess, this) := this.installRoot fuel root rootName
    this.installLeaf tree.asCharPtr root installSuccess

/-- The slots of a tree: names are leaves, and named slots are trees. -/
def installSlots (fuel : Nat) : List (Bytes × Anything) → Option Nat →
    Option Bool → Registry → Option Bool × Registry
  | [], _, installSuccess, this => (installSuccess, this)
  | (leafName, tree) :: slots, root, installSuccess, this =>
    if leafName = [] then
      let (installSuccess, this) := this.installLeaf tree.asCharPtr root installSuccess
      installSlots fuel slots root installSuccess this
    else
      match this.getLeaf leafName root with
      | (none, this) =>
        installSlots fuel slots root (installSuccess.map fun _ => false) this
      | (some leaf, this) =>
        let (subtree, this) := installTree fuel tree (some leaf) leafName (this.setSuper leaf root)
        installSlots fuel slots root (both subtree installSuccess) this

end

def getRoot (this : Registry) (name : Bytes) : Option Nat × Registry :=
  if name = [] then (none, this) else this.getLeaf name none

def installTrees (fuel : Nat) : List (Bytes × Anything) → Option Bool →
    Registry → Option Bool × Registry
  | [], installSuccess, this => (installSuccess, this)
  | (name, tree) :: slots, installSuccess, this =>
    let root := this.getRoot name
    let installed := installTree fuel tree root.1 name root.2
    installTrees fuel slots (installSuccess.bind fun _ => installed.1) installed.2

def doInstall (this : Registry) (fuel : Nat) (installerSpec : Anything) : Option Bool × Registry :=
  installTrees fuel installerSpec.slots (some true) this

end Registry

/-!
## What a specification calls for

The names of a specification mean objects, whatever the supers are.  Each name
below another calls for an assignment, each name with a tree for a test.
-/

/-- The own names of the objects by their address, and the registered names. -/
structure Names where
  own : List Bytes
  registered : Slots Nat

namespace Names

/-- The object that a name means below another one: the registered one, or a
new one, which is registered unless the other one has its name. -/
def refer (this : Names) (name : Bytes) (super : Option Nat) : Option Nat × Names :=
  match this.registered.lookup name, super with
  | some o, _ => (some o, this)
  | none, none => (none, this)
  | none, some super =>
    (some this.own.length, {
      own := this.own ++ [cstr name]
      registered :=
        if isEqual (this.own[super]?.getD []) name then this.registered
        else this.registered.setKey name this.own.length })

def named (this : Names) (name : Bytes) (o : Nat) : Option Unit :=
  if isEqual (this.own[o]?.getD []) name then some () else none

/-- A tree calls for a test of its object by the name that it has there. -/
def test (this : Names) (o : Option Nat) (name : Bytes) : List (Pointers.Step Nat Unit) :=
  o.toList.map fun o => .search o (this.named name)

/-- An object gets the one above it as its super. -/
def put (o super : Option Nat) : List (Pointers.Step Nat Unit) := o.toList.map (.assign · super)

/-- A name without a tree. -/
def leaf (this : Names) (name : Option Bytes) (super : Option Nat) :
    List (Pointers.Step Nat Unit) × Names :=
  match name with
  | none => ([], this)
  | some name => (put (this.refer name super).1 super, (this.refer name super).2)

mutual

/-- The assignments that a tree asks for, below an object. -/
def tree : Anything → Option Nat → Bytes → Names → List (Pointers.Step Nat Unit) × Names
  | .null, o, name, this => (this.test o name, this)
  | .array slots, o, name, this =>
    let below := entries slots o this
    (this.test o name ++ below.1, below.2)
  | tree, o, name, this =>
    let below := this.leaf tree.asCharPtr o
    (this.test o name ++ below.1, below.2)

/-- The assignments that the slots of a tree ask for. -/
def entries : List (Bytes × Anything) → Option Nat → Names →
    List (Pointers.Step Nat Unit) × Names
  | [], _, this => ([], this)
  | (name, value) :: slots, super, this =>
    if name = [] then
      let first := this.leaf value.asCharPtr super
      let rest := entries slots super first.2
      (first.1 ++ rest.1, rest.2)
    else
      match this.refer name super with
      | (none, this) => entries slots super this
      | (some o, this) =>
        let first := tree value (some o) name this
        let rest := entries slots super first.2
        (put (some o) super ++ first.1 ++ rest.1, rest.2)

end

def root (this : Names) (name : Bytes) : Option Nat :=
  if name = [] then none else this.registered.lookup name

def trees : List (Bytes × Anything) → Names → List (Pointers.Step Nat Unit)
  | [], _ => []
  | (name, value) :: slots, this =>
    let first := tree value (this.root name) name this
    first.1 ++ trees slots first.2

end Names

def Registry.names (this : Registry) : Names := ⟨this.objects.map (·.fName), this.table⟩

/-- The assignments and the tests that a specification calls for, in their
order. -/
def Registry.installSteps (this : Registry) (installerSpec : Anything) :
    List (Pointers.Step Nat Unit) :=
  Names.trees installerSpec.slots this.names

/-!
## Cycles of supers

The installation makes the assignments of its specification.  The tests of
`HasSuper` are walks among them that change nothing.
-/

namespace Registry

open Function Fuel Pointers List

theorem getSuper_setSuper (this : Registry) {leaf : Nat}
    (known : leaf < this.objects.length) (super : Option Nat) :
    (this.setSuper leaf super).getSuper = update this.getSuper leaf super := by
  funext o
  rw [getSuper, setSuper, getElem?_modify]
  by_cases same : o = leaf
  · subst same
    rw [update_self, getElem?_eq_getElem known]
    simp
  · rw [update_of_ne same, getSuper]
    simp [Ne.symm same]

theorem getSuper_configuredClone (this : Registry) (super : Nat) (name : Bytes) :
    (this.configuredClone super name).getSuper =
      update this.getSuper this.objects.length (some super) := by
  funext o
  rw [getSuper, configuredClone]
  by_cases same : o = this.objects.length
  · subst same
    simp
  · rw [update_of_ne same, getSuper]
    by_cases known : o < this.objects.length
    · rw [getElem?_append_left known]
    · rw [getElem?_eq_none (by simp; omega), getElem?_eq_none (by omega)]

theorem finite_getSuper (this : Registry) : {o | this.getSuper o ≠ none}.Finite := by
  apply (Set.finite_Iio this.objects.length).subset
  intro o some_
  by_contra unknown
  apply some_
  rw [getSuper, getElem?_eq_none (Nat.le_of_not_lt unknown)]
  rfl

theorem getName_names (this : Registry) (o : Nat) :
    this.getName o = this.names.own[o]?.getD [] := by
  rw [getName, names, getElem?_map]

theorem named_names (this : Registry) (name : Bytes) : this.named name = this.names.named name := by
  funext o
  rw [named, Names.named, getName_names]

theorem names_setSuper (this : Registry) (leaf : Nat) (super : Option Nat) :
    (this.setSuper leaf super).names = this.names := by
  have sameNames : (this.objects.modify leaf fun o => { o with fSuper := super }).map (·.fName) =
      this.objects.map (·.fName) := by
    apply ext_getElem?
    intro i
    rw [getElem?_map, getElem?_modify, getElem?_map]
    split
    · cases this.objects[i]? <;> rfl
    · cases this.objects[i]? <;> rfl
  simp only [names, setSuper, sameNames]

theorem getLeaf_names (this : Registry) (leafName : Bytes) (root : Option Nat) :
    (this.getLeaf leafName root).1 = (this.names.refer leafName root).1 ∧
      (this.getLeaf leafName root).2.names = (this.names.refer leafName root).2 := by
  have sameTable : this.names.registered = this.table := rfl
  cases found : this.table.lookup leafName with
  | some leaf => simp only [getLeaf, Names.refer, sameTable, found, and_self]
  | none =>
    cases root with
    | none => simp only [getLeaf, Names.refer, sameTable, found, and_self]
    | some root =>
      have size : this.names.own.length = this.objects.length := length_map _
      simp only [getLeaf, Names.refer, sameTable, found, getName_names, size]
      split
      · simp [names, configuredClone]
      · simp [names, configuredClone, registerObject]

theorem getLeaf_known (this : Registry) (leafName : Bytes) (root : Option Nat) {leaf : Nat}
    (means : (this.getLeaf leafName root).1 = some leaf) :
    leaf < (this.getLeaf leafName root).2.objects.length := by
  cases found : this.table.lookup leafName with
  | some known =>
    simp only [getLeaf, found] at means ⊢
    cases means
    rcases Option.bind_eq_some_iff.mp found with ⟨i, _, slot⟩
    rcases Option.map_eq_some_iff.mp slot with ⟨entry, at_, rfl⟩
    exact this.valid entry (mem_of_getElem? at_)
  | none =>
    cases root with
    | none => simp [getLeaf, found] at means
    | some root =>
      simp only [getLeaf, found] at means ⊢
      split at means
      · cases means
        simp [*, configuredClone]
      · cases means
        simp [*, registerObject, configuredClone]

/-- The object for a name with the super set is what one assignment makes of
the supers; a clone has it before already. -/
theorem getSuper_getLeaf (this : Registry) (leafName : Bytes) (root : Option Nat) {leaf : Nat}
    (means : (this.getLeaf leafName root).1 = some leaf) :
    ((this.getLeaf leafName root).2.setSuper leaf root).getSuper =
      update this.getSuper leaf root := by
  rw [getSuper_setSuper _ (getLeaf_known this leafName root means)]
  cases found : this.table.lookup leafName with
  | some known => simp only [getLeaf, found]
  | none =>
    cases root with
    | none => simp [getLeaf, found] at means
    | some root =>
      have cloned := getSuper_configuredClone this root leafName
      simp only [getLeaf, found] at means ⊢
      split at means
      · cases means
        simp only [*, if_true]
        rw [update_idem]
      · cases means
        simp only [*]
        show update (this.configuredClone root leafName).getSuper _ _ = _
        rw [cloned, update_idem]

/-- The supers are those after the steps, the tests come to their end exactly
if the results so far say so, and the names mean the objects. -/
structure Traced (base : Nat → Option Nat) (fuel : Nat) (returned : Prop)
    (steps : List (Pointers.Step Nat Unit)) (called : Names) (this : Registry) : Prop where
  supers : this.getSuper = after base steps
  returned : returned ↔ SearchesReturn fuel base steps
  called : this.names = called

variable {base : Nat → Option Nat} {fuel : Nat} {returned returned' : Prop} {this : Registry}
  {steps : List (Pointers.Step Nat Unit)} {called : Names}

section

variable (traced : Traced base fuel returned steps called this)
include traced

theorem Traced.congr (same : returned' ↔ returned) : Traced base fuel returned' steps called this :=
  ⟨traced.supers, same.trans traced.returned, traced.called⟩

theorem Traced.getLeaf (leafName : Bytes) (root : Option Nat) :
    (this.getLeaf leafName root).1 = (called.refer leafName root).1 ∧
      ∀ leaf, (this.getLeaf leafName root).1 = some leaf →
        Traced base fuel returned (steps ++ [.assign leaf root]) (called.refer leafName root).2
          ((this.getLeaf leafName root).2.setSuper leaf root) := by
  rcases getLeaf_names this leafName root with ⟨same, after_⟩
  rw [traced.called] at same after_
  refine ⟨same, fun leaf means => ⟨?_, ?_, ?_⟩⟩
  · rw [getSuper_getLeaf this leafName root means, traced.supers]
    exact (after_append base steps [.assign leaf root]).symm
  · exact traced.returned.trans (searchesReturn_assign root).symm
  · rw [names_setSuper, after_]

theorem Traced.getLeaf_none {leafName : Bytes} {root : Option Nat}
    (none_ : (this.getLeaf leafName root).1 = none) :
    Traced base fuel returned steps (called.refer leafName root).2
      (this.getLeaf leafName root).2 := by
  rcases getLeaf_names this leafName root with ⟨-, after_⟩
  rw [traced.called] at after_
  refine ⟨?_, traced.returned, after_⟩
  rw [← traced.supers]
  cases found : this.table.lookup leafName with
  | some known => simp only [Registry.getLeaf, found]
  | none =>
    cases root with
    | none => simp only [Registry.getLeaf, found]
    | some root =>
      simp only [Registry.getLeaf, found] at none_
      split at none_ <;> cases none_

theorem Traced.installRoot (root : Option Nat) (name : Bytes) :
    Traced base fuel (returned ∧ (this.installRoot fuel root name).1.isSome)
      (steps ++ called.test root name) called (this.installRoot fuel root name).2 := by
  cases root with
  | none =>
    rw [Names.test, Option.toList_none, map_nil, append_nil]
    exact traced.congr (and_iff_left rfl)
  | some root =>
    refine ⟨?_, ?_, traced.called⟩
    · rw [after_append, ← traced.supers]
      rfl
    · rw [Registry.installRoot]
      simp only [Option.isSome_map, hasSuper, Names.test, Option.toList_some, map_cons, map_nil]
      rw [searchesReturn_search, traced.returned, ← traced.supers, named_names, traced.called]

end

theorem Traced.installLeaf {installSuccess : Option Bool}
    (traced : Traced base fuel (returned ∧ installSuccess.isSome) steps called this)
    (leafName : Option Bytes) (root : Option Nat) :
    Traced base fuel (returned ∧ (this.installLeaf leafName root installSuccess).1.isSome)
      (steps ++ (called.leaf leafName root).1) (called.leaf leafName root).2
      (this.installLeaf leafName root installSuccess).2 := by
  cases leafName with
  | none =>
    rw [Names.leaf, append_nil]
    exact traced
  | some leafName =>
    rcases traced.getLeaf leafName root with ⟨same, put⟩
    have failed : (this.getLeaf leafName root).1 = none → _ := traced.getLeaf_none
    rw [Registry.installLeaf, Names.leaf, ← same]
    rcases got : this.getLeaf leafName root with ⟨leaf, after⟩
    rw [got] at put failed
    cases leaf with
    | none =>
      rw [Names.put, Option.toList_none, map_nil, append_nil]
      exact (failed rfl).congr (by simp)
    | some leaf => exact put leaf rfl

theorem isSome_both (a b : Option Bool) : (both a b).isSome ↔ a.isSome ∧ b.isSome := by
  cases a <;> cases b <;> simp [both]

mutual

theorem Traced.installTree (tree : Anything) {returned : Prop} {this : Registry}
    {steps : List (Pointers.Step Nat Unit)} {called : Names}
    (traced : Traced base fuel returned steps called this) (root : Option Nat) (rootName : Bytes) :
    Traced base fuel (returned ∧ (Registry.installTree fuel tree root rootName this).1.isSome)
      (steps ++ (Names.tree tree root rootName called).1)
      (Names.tree tree root rootName called).2
      (Registry.installTree fuel tree root rootName this).2 := by
  have tested := traced.installRoot root rootName
  have alone := fun leafName => tested.installLeaf leafName root
  simp only [append_assoc] at alone
  cases tree with
  | null => exact tested
  | array slots =>
    rw [Names.tree, ← append_assoc]
    exact tested.installSlots slots root
  | long value => exact alone _
  | charPtr value => exact alone _
  | double text => exact alone _
  | voidBuf value => exact alone _
  | object address => exact alone _

theorem Traced.installSlots (slots : List (Bytes × Anything))
    {returned : Prop} {this : Registry} {installSuccess : Option Bool}
    {steps : List (Pointers.Step Nat Unit)} {called : Names}
    (traced : Traced base fuel (returned ∧ installSuccess.isSome) steps called this)
    (root : Option Nat) :
    Traced base fuel
      (returned ∧ (Registry.installSlots fuel slots root installSuccess this).1.isSome)
      (steps ++ (Names.entries slots root called).1) (Names.entries slots root called).2
      (Registry.installSlots fuel slots root installSuccess this).2 := by
  cases slots with
  | nil =>
    rw [Names.entries, append_nil]
    exact traced
  | cons slot slots =>
    rcases slot with ⟨leafName, tree⟩
    rw [Registry.installSlots, Names.entries]
    split
    · rw [← append_assoc]
      exact (traced.installLeaf tree.asCharPtr root).installSlots slots root
    · rcases traced.getLeaf leafName root with ⟨same, put⟩
      have failed : (this.getLeaf leafName root).1 = none → _ := traced.getLeaf_none
      rcases got : this.getLeaf leafName root with ⟨leaf, after⟩
      rcases refers : called.refer leafName root with ⟨o, referred⟩
      rw [got, refers] at same put failed
      cases same
      cases leaf with
      | none =>
        have stays : Traced base fuel (returned ∧ (installSuccess.map fun _ => false).isSome)
            steps referred after := (failed rfl).congr (by simp)
        exact stays.installSlots slots root
      | some leaf =>
        have sub := (put leaf rfl).installTree tree (some leaf) leafName
        rw [append_assoc] at sub
        rw [← append_assoc]
        refine Traced.installSlots slots (sub.congr ?_) root
        rw [isSome_both]
        tauto

end

theorem Traced.installTrees (slots : List (Bytes × Anything)) {this : Registry}
    {installSuccess : Option Bool} {steps : List (Pointers.Step Nat Unit)} {called : Names}
    (traced : Traced base fuel installSuccess.isSome steps called this) :
    (Registry.installTrees fuel slots installSuccess this).2.getSuper =
        after base (steps ++ Names.trees slots called) ∧
      ((Registry.installTrees fuel slots installSuccess this).1.isSome ↔
        SearchesReturn fuel base (steps ++ Names.trees slots called)) := by
  induction slots generalizing this installSuccess steps called with
  | nil =>
    rw [Names.trees, append_nil]
    exact ⟨traced.supers, traced.returned⟩
  | cons slot slots ih =>
    rcases slot with ⟨name, tree⟩
    have isRoot : this.getRoot name = (called.root name, this) := by
      have sameTable : called.registered = this.table := by
        rw [← traced.called]
        rfl
      rw [getRoot, Names.root, sameTable]
      split
      · rfl
      · cases found : this.table.lookup name <;> simp only [Registry.getLeaf, found]
    rw [Registry.installTrees, Names.trees, isRoot, ← append_assoc]
    refine ih ((traced.installTree tree (called.root name) name).congr ?_)
    cases installSuccess <;> simp

/-- The installation makes the assignments of the specification, and its tests
are those of the specification. -/
theorem doInstall_traced (this : Registry) (installerSpec : Anything) (fuel : Nat) :
    (this.doInstall fuel installerSpec).2.getSuper =
        after this.getSuper (this.installSteps installerSpec) ∧
      ((this.doInstall fuel installerSpec).1.isSome ↔
        SearchesReturn fuel this.getSuper (this.installSteps installerSpec)) := by
  have start : Traced this.getSuper fuel (some true).isSome [] this.names this := by
    refine ⟨rfl, iff_of_true rfl ?_, rfl⟩
    intro front a f back split_
    cases front <;> cases split_
  exact start.installTrees installerSpec.slots

/-- The installation returns, leaves no cycle, and `HasSuper` and `DoLookup`
return afterwards, whatever the configurations of the objects give. -/
structure Installs (this : Registry) (installerSpec : Anything) : Prop where
  returns : ∃ bound, ∀ fuel, bound ≤ fuel → (this.doInstall fuel installerSpec).1.isSome
  acyclic : ∀ fuel, Acyclic (this.doInstall fuel installerSpec).2.getSuper
  hasSuper : ∀ fuel super name, ∃ found, Settles
    (fun fuel' => (this.doInstall fuel installerSpec).2.hasSuper fuel' super name) found
  doLookup : ∀ fuel (own : Nat → Bytes → Option Anything) o key, ∃ result, Settles
      (fun fuel' => (this.doInstall fuel installerSpec).2.doLookup own fuel' o key) result

/-- This is so exactly if each test that the specification calls for finds its
name or an end of the supers, and each cycle that an assignment of the
specification closes is opened by a later one. -/
theorem installs_iff {this : Registry} (acyclic : Acyclic this.getSuper)
    (installerSpec : Anything) :
    Installs this installerSpec ↔ SearchesEnd this.getSuper (this.installSteps installerSpec) ∧
      CyclesOpened this.getSuper (this.installSteps installerSpec) := by
  have traced := doInstall_traced this installerSpec
  constructor
  · intro installs
    rcases installs.returns with ⟨bound, returns⟩
    have noCycle := installs.acyclic 0
    rw [(traced 0).1, acyclic_after_iff acyclic] at noCycle
    exact ⟨searchesEnd_of_return ((traced bound).2.mp (returns bound (Nat.le_refl bound))), noCycle⟩
  · rintro ⟨searches, opened⟩
    have noCycle : ∀ fuel, Acyclic (this.doInstall fuel installerSpec).2.getSuper := by
      intro fuel
      rw [(traced fuel).1]
      exact (acyclic_after_iff acyclic).mpr opened
    refine ⟨?_, noCycle, ?_, ?_⟩
    · rcases exists_searchesReturn searches with ⟨bound, returns⟩
      exact ⟨bound, fun fuel large =>
        (traced fuel).2.mpr (returns fuel large)⟩
    · intro fuel super name
      rcases ((noCycle fuel).ends (finite_getSuper _) (named _ name)
        super).settles with ⟨found, settles⟩
      exact ⟨found.isSome, settles.map Option.isSome⟩
    · intro fuel own o key
      exact ((noCycle fuel).ends (finite_getSuper _) _ (some o)).settles

/-- The registry with the object `A`. -/
private def onlyA : Registry where
  objects := [⟨[65], none⟩]
  table := [([65], 0)]
  valid := by decide

/-- `{ /A { /B { "A" } } }`. -/
private def aBelowItself : Anything :=
  .array [([65], .array [([66], .array [([], .charPtr [65])])])]

theorem acyclic_onlyA : Acyclic onlyA.getSuper := by
  rintro o ⟨b, goesOn, _⟩
  rcases o with _ | o <;> cases goesOn

theorem not_installs_aBelowItself : ¬ Installs onlyA aBelowItself := by
  intro installs
  apply installs.acyclic 0 0
  exact ⟨1, rfl, Leads.single rfl⟩

/-- `{ /A { "B" } }`. -/
private def bBelowA : Anything := .array [([65], .array [([], .charPtr [66])])]

theorem installSteps_bBelowA :
    onlyA.installSteps bBelowA = [.search 0 (onlyA.names.named [65]), .assign 1 (some 0)] := rfl

theorem searchesEnd_bBelowA : SearchesEnd onlyA.getSuper (onlyA.installSteps bBelowA) := by
  intro front a f back split_
  rw [installSteps_bBelowA] at split_
  match front, split_ with
  | [], split_ =>
    cases split_
    exact ⟨0, .refl, nofun⟩
  | [first], split_ => cases split_
  | first :: second :: front, split_ => cases front <;> cases split_

theorem cyclesOpened_bBelowA : CyclesOpened onlyA.getSuper (onlyA.installSteps bBelowA) := by
  intro front a b back split_ leads
  rw [installSteps_bBelowA] at split_
  match front, split_ with
  | [], split_ => cases split_
  | [first], split_ =>
    cases split_
    rcases Relation.ReflTransGen.cases_head leads with same | ⟨c, goesOn, -⟩
    · cases same
    · cases goesOn
  | first :: second :: front, split_ => cases front <;> cases split_

/-- `A` below `B` below `A` is outside of the condition, `B` below `A` meets it. -/
theorem installs_iff_aBelowItself :
    ¬ (SearchesEnd onlyA.getSuper (onlyA.installSteps aBelowItself) ∧
      CyclesOpened onlyA.getSuper (onlyA.installSteps aBelowItself)) ∧
    Installs onlyA bBelowA := by
  constructor
  · rw [← installs_iff acyclic_onlyA aBelowItself]
    exact not_installs_aBelowItself
  · exact (installs_iff acyclic_onlyA bBelowA).mpr ⟨searchesEnd_bBelowA, cyclesOpened_bBelowA⟩

/-- An object becomes its own super by way of another one. -/
theorem not_installs :
    ¬ ∀ (this : Registry) (installerSpec : Anything),
      Acyclic this.getSuper → Installs this installerSpec := by
  intro installs
  exact not_installs_aBelowItself (installs onlyA aBelowItself acyclic_onlyA)

end Registry

end Coast
