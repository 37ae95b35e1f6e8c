import Coast.Library.Ownership
import Coast.Library.Runs

/-!
# The shared object list

`ObjectList_r` is a list with a mutex.  Removers wait on one condition for
elements, and a shutdown that drains the list waits on another one until the
list is empty.
-/

namespace Coast

open Function Ownership List

structure ObjectList (ε : Type) where
  list : List ε
  fShutdown : Bool
  fDestructiveShutdown : Bool

namespace ObjectList

variable {ε : Type}

def isShuttingDown (this : ObjectList ε) : Bool := this.fShutdown

def doIsEmpty (this : ObjectList ε) : Bool := this.list.isEmpty

/-- The locked section of `RemoveHead`: it waits while there is nothing to take. -/
def doRemoveHead (this : ObjectList ε) : Option ε × ObjectList ε :=
  if this.isShuttingDown then (none, this)
  else
    match this.list with
    | [] => (none, this)
    | aElement :: list => (some aElement, { this with list := list })

/-- The locked section of `InsertTail`; those who wait for elements are woken. -/
def doInsertTail (this : ObjectList ε) (newObj : ε) : Bool × ObjectList ε :=
  if this.isShuttingDown then (false, this)
  else (true, { this with list := this.list ++ [newObj] })

/-- The locked section of `SignalShutdown`; a draining one waits for the list to be empty. -/
def doSignalShutdown (this : ObjectList ε) (bDestructive : Bool) : ObjectList ε :=
  { this with fDestructiveShutdown := bDestructive, fShutdown := true }

end ObjectList

/-! ## Threads that use it -/

inductive ListCall (ε : Type) where
  | insertTail (newObj : ε)
  | removeHead
  | signalShutdown (bDestructive : Bool)
  deriving DecidableEq, Repr

/-- What the calls return, for the record. -/
inductive ListResult (ε : Type) where
  | inserted (newObj : ε) (bInsertSuccess : Bool)
  | removed (aElement : Option ε)
  | shutDown (bDestructive : Bool)
  deriving DecidableEq, Repr

/-- Where a thread is.  It has the mutex in `body`, where it tests whether it
has to wait, and in `unlock`. -/
inductive ListPc (ε : Type) where
  | idle
  | lock (call : ListCall ε)
  | body (call : ListCall ε)
  | wait (call : ListCall ε)
  | woken (call : ListCall ε) (timedOut : Bool)
  | unlock (result : ListResult ε)
  | returned (result : ListResult ε)
  deriving DecidableEq, Repr

/-- The list, the threads and what has happened: a thread that waits is in
`fCondEmpty` or `fCondFull` until a wake-up for it is pending; `inserted` are
the elements whose insertion succeeded, `removed` the elements that were
delivered, with the thread that got them. -/
structure ObjectList_r (ι ε : Type) extends ObjectList ε where
  fMutex : Option ι
  fCondEmpty : List ι
  fCondFull : List ι
  pcs : ι → ListPc ε
  inserted : List ε
  removed : List (ι × ε)

/-- A call begins, goes on, or its wait ends early or in time. -/
inductive ListMove (ι ε : Type) where
  | call (me : ι) (call : ListCall ε)
  | go (me : ι)
  | spurious (me : ι)
  | timeout (me : ι)
  deriving DecidableEq, Repr

namespace ObjectList_r

variable {ι ε : Type}

def create : ObjectList_r ι ε where
  list := []
  fShutdown := false
  fDestructiveShutdown := false
  fMutex := none
  fCondEmpty := []
  fCondFull := []
  pcs := fun _ => .idle
  inserted := []
  removed := []

variable [DecidableEq ι]

def moveTo (this : ObjectList_r ι ε) (me : ι) (pc : ListPc ε) : ObjectList_r ι ε :=
  { this with pcs := update this.pcs me pc }

def acquire (this : ObjectList_r ι ε) (me : ι) (pc : ListPc ε) : Option (ObjectList_r ι ε) :=
  if this.fMutex = none then
    some { this.moveTo me pc with fMutex := some me }
  else none

def releaseTo (this : ObjectList_r ι ε) (me : ι) (pc : ListPc ε) : ObjectList_r ι ε :=
  { this.moveTo me pc with fMutex := none }

/-- It appends and wakes all removers. -/
def doInsertTail (this : ObjectList_r ι ε) (me : ι) (newObj : ε) : ObjectList_r ι ε :=
  let (bInsertSuccess, base) := this.toObjectList.doInsertTail newObj
  let this := this.moveTo me (.unlock (.inserted newObj bInsertSuccess))
  if bInsertSuccess then
    { this with
      toObjectList := base
      fCondFull := []
      inserted := this.inserted ++ [newObj] }
  else { this with toObjectList := base }

/-- It waits, or takes the head and wakes a draining shutdown. -/
def doRemoveHead (this : ObjectList_r ι ε) (me : ι) : ObjectList_r ι ε :=
  if !this.isShuttingDown && this.doIsEmpty then
    { this.releaseTo me (.wait .removeHead) with
      fCondFull := me :: this.fCondFull }
  else
    match this.toObjectList.doRemoveHead with
    | (some aElement, base) =>
      { this.moveTo me (.unlock (.removed (some aElement))) with
        toObjectList := base
        fCondEmpty := []
        removed := this.removed ++ [(me, aElement)] }
    | (none, base) =>
      { this.moveTo me (.unlock (.removed none)) with toObjectList := base }

def doSignalShutdown (this : ObjectList_r ι ε) (me : ι) (bDestructive : Bool) : ObjectList_r ι ε :=
  if !bDestructive && !this.doIsEmpty then
    { this.releaseTo me (.wait (.signalShutdown bDestructive)) with
      fCondEmpty := me :: this.fCondEmpty }
  else
    { this.moveTo me (.unlock (.shutDown bDestructive)) with
      toObjectList := this.toObjectList.doSignalShutdown bDestructive
      fCondFull := [] }

/-- The next step of a thread in a call. -/
def stepThread (this : ObjectList_r ι ε) (me : ι) : Option (ObjectList_r ι ε) :=
  match this.pcs me with
  | .idle | .returned _ => none
  | .lock call => this.acquire me (.body call)
  | .body (.insertTail newObj) => some (this.doInsertTail me newObj)
  | .body .removeHead => some (this.doRemoveHead me)
  | .body (.signalShutdown bDestructive) =>
    some (this.doSignalShutdown me bDestructive)
  | .wait call =>
    if me ∈ this.fCondEmpty ∨ me ∈ this.fCondFull then none
    else some (this.moveTo me (.woken call false))
  | .woken call timedOut =>
    this.acquire me (if timedOut then .unlock (.removed none) else .body call)
  | .unlock result => some (this.releaseTo me (.returned result))

/-- Only removers wait with a timeout; a wake-up may be spurious. -/
def step (this : ObjectList_r ι ε) : ListMove ι ε → Option (ObjectList_r ι ε)
  | .call me call =>
    match this.pcs me with
    | .idle | .returned _ => some (this.moveTo me (.lock call))
    | _ => none
  | .go me => this.stepThread me
  | .spurious me =>
    match this.pcs me with
    | .wait _ =>
      some { this with
        fCondEmpty := this.fCondEmpty.filter (· ≠ me)
        fCondFull := this.fCondFull.filter (· ≠ me) }
    | _ => none
  | .timeout me =>
    match this.pcs me with
    | .wait .removeHead =>
      some { this.moveTo me (.woken .removeHead true) with
        fCondFull := this.fCondFull.filter (· ≠ me) }
    | _ => none

/-! ## What a step keeps -/

def hasMutex : ListPc ε → Bool
  | .body _ | .unlock _ => true
  | _ => false

/-- The thread is where it has shut the list down and drained it. -/
def Drained : ListPc ε → Prop
  | .unlock (.shutDown false) | .returned (.shutDown false) => True
  | _ => False

/-- The invariant.  Who waits without a pending wake-up has a reason to. -/
structure Inv (this : ObjectList_r ι ε) : Prop where
  mutex : Owns this.fMutex fun me => hasMutex (this.pcs me)
  delivered : this.inserted = this.removed.map Prod.snd ++ this.list
  full : ∀ me ∈ this.fCondFull, this.pcs me = .wait .removeHead ∧
    this.list = [] ∧ this.fShutdown = false
  empty : ∀ me ∈ this.fCondEmpty, this.pcs me = .wait (.signalShutdown false) ∧ this.list ≠ []
  drained : ∀ me, Drained (this.pcs me) → this.fShutdown = true ∧ this.list = []

omit [DecidableEq ι] in
theorem create_inv : Inv (create : ObjectList_r ι ε) where
  mutex := Owns.free fun _ => rfl
  delivered := rfl
  full := nofun
  empty := nofun
  drained := nofun

section Steps

variable {this : ObjectList_r ι ε} {me : ι} {p : ListPc ε}

theorem forall_update {P : ι → ListPc ε → Prop}
    (others : ∀ c, c ≠ me → P c (this.pcs c)) (mine : P me p) :
    ∀ c, P c (update this.pcs me p c) := by
  intro c
  by_cases same : c = me
  · rw [same, update_self]
    exact mine
  · rw [update_of_ne same]
    exact others c same

theorem Inv.owns (inv : Inv this) {fMutex : Option ι}
    (steps : OwnStep me this.fMutex (hasMutex (this.pcs me)) fMutex
      (hasMutex p)) :
    Owns fMutex fun c => hasMutex (update this.pcs me p c) := by
  have others : ∀ c, c ≠ me → hasMutex (update this.pcs me p c) = hasMutex (this.pcs c) := by
    intro c different
    rw [update_of_ne different]
  apply inv.mutex.step others
  rw [update_self]
  exact steps

omit [DecidableEq ι] in
theorem Inv.waits (inv : Inv this) (me : ι) (busy : ∀ call, this.pcs me ≠ .wait call) :
    me ∉ this.fCondFull ∧ me ∉ this.fCondEmpty :=
  ⟨fun member => busy _ (inv.full me member).1, fun member => busy _ (inv.empty me member).1⟩

theorem waits_update {call : ListCall ε} {waiting : List ι}
    (waits : ∀ c ∈ waiting, this.pcs c = .wait call) (absent : me ∉ waiting) :
    ∀ c ∈ waiting, update this.pcs me p c = .wait call := by
  intro c member
  have different : c ≠ me := fun same => absent (same ▸ member)
  rw [update_of_ne different]
  exact waits c member

section

variable (inv : Inv this)
include inv

theorem Inv.moved {fMutex : Option ι}
    (steps : OwnStep me this.fMutex (hasMutex (this.pcs me)) fMutex (hasMutex p))
    (notFull : me ∉ this.fCondFull) (notEmpty : me ∉ this.fCondEmpty)
    (drained : Drained p → this.fShutdown = true ∧ this.list = []) :
    Inv { this.moveTo me p with fMutex := fMutex } where
  mutex := inv.owns steps
  delivered := inv.delivered
  full c member :=
    ⟨waits_update (fun c member => (inv.full c member).1) notFull c member, (inv.full c member).2⟩
  empty c member :=
    ⟨waits_update (fun c member => (inv.empty c member).1) notEmpty c member,
      (inv.empty c member).2⟩
  drained := forall_update (P := fun _ p => Drained p → _) (fun c _ => inv.drained c) drained

theorem doInsertTail_inv {newObj : ε}
    (pc : this.pcs me = .body (.insertTail newObj)) :
    Inv (this.doInsertTail me newObj) := by
  have busy := inv.waits me fun call => by
    rw [pc]
    exact nofun
  have keeps : ∀ result : ListResult ε, OwnStep me this.fMutex
      (hasMutex (this.pcs me)) this.fMutex (hasMutex (.unlock result)) := by
    intro result
    rw [pc]
    exact .keep _ _
  unfold doInsertTail ObjectList.doInsertTail ObjectList.isShuttingDown
  cases shutdown : this.fShutdown with
  | true => exact inv.moved (keeps _) busy.1 busy.2 nofun
  | false =>
    refine ⟨inv.owns (keeps _), ?_, nofun, ?_, ?_⟩
    · show this.inserted ++ [newObj] = this.removed.map Prod.snd ++ (this.list ++ [newObj])
      rw [inv.delivered, append_assoc]
    · intro c member
      exact ⟨waits_update (fun c member => (inv.empty c member).1) busy.2 c
        member, append_ne_nil_of_right_ne_nil _ (cons_ne_nil _ _)⟩
    · -- nobody has shut the list down
      refine forall_update (P := fun _ p => Drained p → _) ?_ nofun
      intro c _ drained
      have known := (inv.drained c drained).1
      rw [shutdown] at known
      cases known

theorem doRemoveHead_inv
    (pc : this.pcs me = .body .removeHead) : Inv (this.doRemoveHead me) := by
  have busy := inv.waits me fun call => by
    rw [pc]
    exact nofun
  have keeps : ∀ result : ListResult ε, OwnStep me this.fMutex
      (hasMutex (this.pcs me)) this.fMutex (hasMutex (.unlock result)) := by
    intro result
    rw [pc]
    exact .keep _ _
  have releases : OwnStep me this.fMutex (hasMutex (this.pcs me)) none
      (hasMutex (.wait .removeHead : ListPc ε)) := by
    rw [pc]
    exact .release _
  unfold doRemoveHead ObjectList.doRemoveHead ObjectList.isShuttingDown ObjectList.doIsEmpty
  cases shutdown : this.fShutdown with
  | true => exact inv.moved (keeps _) busy.1 busy.2 nofun
  | false =>
    cases list : this.list with
    | nil =>
      refine ⟨inv.owns releases, ?_, ?_, ?_, ?_⟩
      · show this.inserted = this.removed.map Prod.snd ++ this.list
        exact inv.delivered
      · intro c member
        refine ⟨?_, list, shutdown⟩
        rcases mem_cons.mp member with isMe | other
        · rw [isMe]
          exact update_self _ _ _
        · exact waits_update (fun c member => (inv.full c member).1) busy.1 c other
      · intro c member
        exact absurd list (inv.empty c member).2
      · exact forall_update (P := fun _ p => Drained p → _) (fun c _ => inv.drained c) nofun
    | cons aElement list' =>
      refine ⟨inv.owns (keeps _), ?_, ?_, nofun, ?_⟩
      · show this.inserted = (this.removed ++ [(me, aElement)]).map Prod.snd ++ list'
        rw [inv.delivered, list, map_append, append_assoc]
        rfl
      · intro c member
        have known := (inv.full c member).2.1
        rw [list] at known
        cases known
      · refine forall_update (P := fun _ p => Drained p → _) ?_ nofun
        intro c _ drained
        have known := (inv.drained c drained).1
        rw [shutdown] at known
        cases known

theorem doSignalShutdown_inv {bDestructive : Bool}
    (pc : this.pcs me = .body (.signalShutdown bDestructive)) :
    Inv (this.doSignalShutdown me bDestructive) := by
  have busy := inv.waits me fun call => by
    rw [pc]
    exact nofun
  have keeps : OwnStep me this.fMutex (hasMutex (this.pcs me)) this.fMutex
      (hasMutex (.unlock (.shutDown bDestructive) : ListPc ε)) := by
    rw [pc]
    exact .keep _ _
  have releases : OwnStep me this.fMutex (hasMutex (this.pcs me)) none
      (hasMutex (.wait (.signalShutdown bDestructive) : ListPc ε)) := by
    rw [pc]
    exact .release _
  unfold doSignalShutdown ObjectList.doSignalShutdown ObjectList.doIsEmpty
  by_cases waits : (!bDestructive && !this.list.isEmpty) = true
  · rw [if_pos waits]
    rw [Bool.and_eq_true, Bool.not_eq_true', Bool.not_eq_true'] at waits
    have some' : this.list ≠ [] := isEmpty_eq_false_iff.mp waits.2
    refine ⟨inv.owns releases, inv.delivered, ?_, ?_, ?_⟩
    · intro c member
      exact absurd (inv.full c member).2.1 some'
    · intro c member
      refine ⟨?_, some'⟩
      rcases mem_cons.mp member with isMe | other
      · rw [isMe, ← waits.1]
        exact update_self _ _ _
      · exact waits_update (fun c member => (inv.empty c member).1) busy.2 c other
    · exact forall_update (P := fun _ p => Drained p → _) (fun c _ => inv.drained c) nofun
  · rw [if_neg waits]
    refine ⟨inv.owns keeps, inv.delivered, nofun, ?_, ?_⟩
    · intro c member
      exact ⟨waits_update (fun c member => (inv.empty c member).1) busy.2 c
        member, (inv.empty c member).2⟩
    · refine forall_update (P := fun _ p => Drained p → _)
        (fun c _ drained => ⟨rfl, (inv.drained c drained).2⟩) ?_
      intro drained
      cases bDestructive with
      | true => exact drained.elim
      | false => exact ⟨rfl, by simpa using waits⟩

end

variable {after : ObjectList_r ι ε}

theorem acquire_inv (inv : Inv this) (busy : ∀ call, this.pcs me ≠ .wait call)
    (without : hasMutex (this.pcs me) = false) (has : hasMutex p = true)
    (undrained : ¬ Drained p) (steps : this.acquire me p = some after) :
    Inv after := by
  unfold acquire at steps
  split at steps
  · rename_i free
    cases steps
    have absent := inv.waits me busy
    apply inv.moved _ absent.1 absent.2 fun drained => absurd drained undrained
    rw [free, without, has]
    exact .take
  · cases steps

theorem stepThread_inv (inv : Inv this) (steps : this.stepThread me = some after) : Inv after := by
  unfold stepThread at steps
  split at steps
  · cases steps
  · cases steps
  · rename_i call pc
    apply acquire_inv inv _ (by rw [pc]; rfl) rfl id steps
    rw [pc]
    exact nofun
  · rename_i newObj pc
    cases steps
    exact doInsertTail_inv inv pc
  · rename_i pc
    cases steps
    exact doRemoveHead_inv inv pc
  · rename_i bDestructive pc
    cases steps
    exact doSignalShutdown_inv inv pc
  · rename_i call pc
    split at steps
    · cases steps
    · rename_i absent
      cases steps
      rw [not_or] at absent
      apply inv.moved _ absent.2 absent.1 False.elim
      rw [pc]
      exact .keep _ _
  · rename_i call timedOut pc
    apply acquire_inv inv _ (by rw [pc]; rfl) _ _ steps
    · rw [pc]
      exact nofun
    · cases timedOut with
      | true => rfl
      | false => rfl
    · cases timedOut with
      | true => exact id
      | false => exact id
  · rename_i result pc
    cases steps
    have absent := inv.waits me fun call => by
      rw [pc]
      exact nofun
    apply inv.moved _ absent.1 absent.2
    · intro drained
      apply inv.drained me
      rw [pc]
      cases result with
      | inserted newObj bInsertSuccess => exact drained
      | removed aElement => exact drained
      | shutDown bDestructive =>
        cases bDestructive with
        | true => exact drained
        | false => exact drained
    · rw [pc]
      exact .release _

theorem woken_inv (me : ι) (inv : Inv this) : Inv { this with
    fCondEmpty := this.fCondEmpty.filter (· ≠ me)
    fCondFull := this.fCondFull.filter (· ≠ me) } where
  mutex := inv.mutex
  delivered := inv.delivered
  full c member := inv.full c (mem_of_mem_filter member)
  empty c member := inv.empty c (mem_of_mem_filter member)
  drained := inv.drained

theorem not_mem_filter_ne (waiting : List ι) (me : ι) : me ∉ waiting.filter (· ≠ me) := by
  intro member
  have other := (mem_filter.mp member).2
  rw [decide_eq_true_eq] at other
  exact other rfl

theorem timeout_inv (inv : Inv this) (pc : this.pcs me = .wait .removeHead) :
    Inv { this.moveTo me (.woken .removeHead true) with
      fCondFull := this.fCondFull.filter (· ≠ me) } := by
  have other : me ∉ this.fCondEmpty := by
    intro member
    have known := (inv.empty me member).1
    rw [pc] at known
    cases known
  have unchanged : this.fCondEmpty.filter (· ≠ me) = this.fCondEmpty := by
    rw [filter_eq_self]
    intro c member
    rw [decide_eq_true_eq]
    intro same
    exact other (same ▸ member)
  have woken := woken_inv me inv
  rw [unchanged] at woken
  apply woken.moved _ (not_mem_filter_ne _ _) other False.elim
  show OwnStep me this.fMutex (hasMutex (this.pcs me)) this.fMutex false
  rw [pc]
  exact .keep _ _

def isFree : ListPc ε → Bool
  | .idle | .returned _ => true
  | _ => false

theorem call_inv (inv : Inv this) {call : ListCall ε} (free : isFree (this.pcs me) = true) :
    Inv (this.moveTo me (.lock call)) := by
  have absent := inv.waits me fun call' pc => by
    rw [pc] at free
    cases free
  apply inv.moved _ absent.1 absent.2 False.elim
  cases pc : this.pcs me with
  | idle => exact .keep _ _
  | returned result => exact .keep _ _
  | _ =>
    rw [pc] at free
    cases free

theorem step_inv {move : ListMove ι ε}
    (inv : Inv this) (steps : this.step move = some after) : Inv after := by
  cases move with
  | call me call =>
    rw [step] at steps
    split at steps
    · rename_i pc
      cases steps
      exact call_inv inv (by rw [pc]; rfl)
    · rename_i result pc
      cases steps
      exact call_inv inv (by rw [pc]; rfl)
    · cases steps
  | go me => exact stepThread_inv inv steps
  | spurious me =>
    rw [step] at steps
    split at steps
    · cases steps
      exact woken_inv me inv
    · cases steps
  | timeout me =>
    rw [step] at steps
    split at steps
    · rename_i pc
      cases steps
      exact timeout_inv inv pc
    · cases steps

theorem stepThread_drained
    (drained : this.fShutdown = true ∧ this.list = []) (steps : this.stepThread me = some after) :
    after.fShutdown = true ∧ after.list = [] := by
  have acquired : ∀ p, this.acquire me p = some after →
      after.fShutdown = true ∧ after.list = [] := by
    intro p acquires
    unfold acquire at acquires
    split at acquires
    · cases acquires
      exact drained
    · cases acquires
  unfold stepThread at steps
  split at steps
  · cases steps
  · cases steps
  · exact acquired _ steps
  · cases steps
    unfold doInsertTail ObjectList.doInsertTail ObjectList.isShuttingDown
    rw [drained.1]
    exact drained
  · cases steps
    unfold doRemoveHead ObjectList.doRemoveHead ObjectList.isShuttingDown
    rw [drained.1]
    exact drained
  · cases steps
    unfold doSignalShutdown ObjectList.doIsEmpty
    rw [drained.2, isEmpty_nil, Bool.not_true, Bool.and_false]
    exact ⟨rfl, drained.2⟩
  · split at steps
    · cases steps
    · cases steps
      exact drained
  · exact acquired _ steps
  · cases steps
    exact drained

theorem step_drained {move : ListMove ι ε}
    (drained : this.fShutdown = true ∧ this.list = []) (steps : this.step move = some after) :
    after.fShutdown = true ∧ after.list = [] := by
  cases move with
  | go me => exact stepThread_drained drained steps
  | call me call =>
    rw [step] at steps
    split at steps <;> cases steps
    · exact drained
    · exact drained
  | spurious me =>
    rw [step] at steps
    split at steps <;> cases steps
    exact drained
  | timeout me =>
    rw [step] at steps
    split at steps <;> cases steps
    exact drained

end Steps

/-- A thread that waits has been woken, and goes on when the mutex is free. -/
def WakeUpPending (this : ObjectList_r ι ε) (me : ι) : Prop :=
  me ∉ this.fCondEmpty ∧ me ∉ this.fCondFull

omit [DecidableEq ι] in
theorem Inv.pending {this : ObjectList_r ι ε} (inv : Inv this) {me : ι} :
    (this.pcs me = .wait .removeHead →
      this.list ≠ [] ∨ this.fShutdown = true → this.WakeUpPending me) ∧
    (this.pcs me = .wait (.signalShutdown false) → this.list = [] → this.WakeUpPending me) := by
  constructor
  · intro waits reason
    constructor
    · intro member
      have known := (inv.empty me member).1
      rw [waits] at known
      cases known
    · intro member
      rcases inv.full me member with ⟨-, isEmpty, alive⟩
      rcases reason with some' | shutdown
      · exact some' isEmpty
      · rw [alive] at shutdown
        cases shutdown
  · intro waits isEmpty
    constructor
    · exact fun member => (inv.empty me member).2 isEmpty
    · intro member
      have known := (inv.full me member).1
      rw [waits] at known
      cases known

/-- In every run, what was inserted has been delivered, once and in order, or
is in the list.  A list that a shutdown has drained stays empty.  No remover
waits without a wake-up while there are elements or the list is shut down,
and no draining shutdown while the list is empty. -/
theorem create_run {moves later : List (ListMove ι ε)} {this after : ObjectList_r ι ε}
    (runs : Runs.run step create moves = some this) (goes : Runs.run step this later = some after) :
    this.inserted = this.removed.map Prod.snd ++ this.list ∧
      (∀ me, this.pcs me = .returned (.shutDown false) → this.list = [] ∧ after.list = []) ∧
      (∀ me, this.pcs me = .wait .removeHead →
        this.list ≠ [] ∨ this.fShutdown = true → this.WakeUpPending me) ∧
      ∀ me, this.pcs me = .wait (.signalShutdown false) → this.list = [] →
        this.WakeUpPending me := by
  have inv : Inv this := Runs.run_invariant_always
    (fun _ _ _ inv steps => step_inv inv steps) create_inv runs
  refine ⟨inv.delivered, ?_, fun me => inv.pending.1, fun me =>
    inv.pending.2⟩
  intro me returned
  have drained : this.fShutdown = true ∧ this.list = [] :=
    inv.drained me (by rw [returned]; trivial)
  have still : after.fShutdown = true ∧ after.list = [] :=
    Runs.run_invariant_always (fun _ _ _ drained steps =>
      step_drained drained steps) drained goes
  exact ⟨drained.2, still.2⟩

/-- Thread 0 inserts an element while thread 1 waits for one, and thread 2
drains the list. -/
private def drainsOne : List (ListMove Nat Nat) :=
  [.call 1 .removeHead, .go 1, .go 1, .call 0 (.insertTail 7), .go 0, .go 0,
    .go 0, .call 2 (.signalShutdown false), .go 2, .go 2, .go 1, .go 1, .go 1,
    .go 1, .go 2, .go 2, .go 2, .go 2]

theorem create_run_drainsOne : ∃ this : ObjectList_r Nat Nat,
    Runs.run step create drainsOne = some this ∧
      this.pcs 2 = .returned (.shutDown false) ∧ this.removed = [(1, 7)] ∧
      this.inserted = this.removed.map Prod.snd ++ this.list := by
  obtain ⟨this, runs, drained, removed⟩ : ∃ this : ObjectList_r Nat Nat,
      Runs.run step create drainsOne = some this ∧ this.pcs 2 = .returned (.shutDown false) ∧
        this.removed = [(1, 7)] := ⟨_, rfl, rfl, rfl⟩
  have all := create_run runs (rfl : Runs.run step this [] = some this)
  exact ⟨this, runs, drained, removed, all.1⟩

theorem go_of_hasMutex {this : ObjectList_r ι ε} {me : ι}
    (held : hasMutex (this.pcs me) = true) : (this.step (.go me)).isSome := by
  rw [step, stepThread]
  cases pc : this.pcs me with
  | body call => cases call <;> rfl
  | unlock result => rfl
  | _ =>
    rw [pc] at held
    cases held

theorem go_of_wants {this : ObjectList_r ι ε} {me : ι} (free : this.fMutex = none)
    (wants : (∃ call, this.pcs me = .lock call) ∨
      ∃ call timedOut, this.pcs me = .woken call timedOut) : (this.step (.go me)).isSome := by
  rcases wants with ⟨call, pc⟩ | ⟨call, timedOut, pc⟩
  · simp [step, stepThread, pc, acquire, free]
  · simp [step, stepThread, pc, acquire, free]

/-- In every reachable state some thread can go on, or those that have a call
are removers of a list that is empty and alive, or they are draining shutdowns
of a list with elements. -/
theorem create_run_goesOn {moves : List (ListMove ι ε)} {this : ObjectList_r ι ε}
    (runs : Runs.run step create moves = some this) :
    (∃ me, (this.step (.go me)).isSome) ∨
      (∀ me, isFree (this.pcs me) ∨
        this.pcs me = .wait .removeHead ∧ this.list = [] ∧ this.fShutdown = false) ∨
      ∀ me, isFree (this.pcs me) ∨
        this.pcs me = .wait (.signalShutdown false) ∧ this.list ≠ [] := by
  have inv : Inv this := Runs.run_invariant_always
    (fun _ _ _ inv steps => step_inv inv steps) create_inv runs
  rcases inv.mutex.goesOn (fun _ => go_of_hasMutex) (fun free _ => go_of_wants free) with
    goes | quiet
  · exact .inl goes
  · by_cases woken : ∃ me call, this.pcs me = .wait call ∧ this.WakeUpPending me
    · rcases woken with ⟨me, call, pc, notEmpty, notFull⟩
      exact .inl ⟨me, by simp [step, stepThread, pc, notEmpty, notFull]⟩
    · -- who is not free waits for a reason
      have reason : ∀ me, isFree (this.pcs me) ∨
          (this.pcs me = .wait .removeHead ∧ this.list = [] ∧ this.fShutdown = false) ∨
          this.pcs me = .wait (.signalShutdown false) ∧ this.list ≠ [] := by
        intro me
        cases pc : this.pcs me with
        | idle | returned result => exact .inl rfl
        | lock call => exact absurd (.inl ⟨call, pc⟩) (quiet me).2
        | woken call timedOut => exact absurd (.inr ⟨call, timedOut, pc⟩) (quiet me).2
        | body call | unlock result => exact absurd (quiet me).1 (by simp [hasMutex, pc])
        | wait call =>
          by_cases onFull : me ∈ this.fCondFull
          · exact .inr (.inl (pc ▸ inv.full me onFull))
          · have onEmpty : me ∈ this.fCondEmpty := by
              by_contra absent
              exact woken ⟨me, call, pc, absent, onFull⟩
            exact .inr (.inr (pc ▸ inv.empty me onEmpty))
      right
      by_cases noElement : this.list = []
      · left
        intro me
        exact (reason me).imp_right fun waits => waits.resolve_right fun drain => drain.2 noElement
      · right
        intro me
        exact (reason me).imp_right fun waits =>
          waits.resolve_left fun remove => noElement remove.2.1

theorem create_run_goesOn_waits : ∃ this : ObjectList_r Nat Nat,
    Runs.run step create (drainsOne.take 3) = some this ∧
      ((∃ me, (this.step (.go me)).isSome) ∨ ∀ me, isFree (this.pcs me) ∨
        this.pcs me = .wait .removeHead ∧ this.list = [] ∧ this.fShutdown = false) := by
  obtain ⟨this, runs, waits⟩ : ∃ this : ObjectList_r Nat Nat,
      Runs.run step create (drainsOne.take 3) = some this ∧ this.pcs 1 = .wait .removeHead :=
    ⟨_, rfl, rfl⟩
  refine ⟨this, runs, (create_run_goesOn runs).imp_right fun all => ?_⟩
  refine all.resolve_right fun drains => ?_
  rcases drains 1 with free | drain
  · rw [waits] at free
    cases free
  · rw [waits] at drain
    cases drain.1

end ObjectList_r

end Coast
