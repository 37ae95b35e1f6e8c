import Coast.Library.Runs
import Coast.Queueing.QueueSteps

/-!
# What is put is handed out once and in order

The container is what was stored and not handed out yet.  The status that a
call returns, or is about to return, says whether it stored or took an
element.
-/

namespace Coast

open Runs List Function

def AccessPc.outcome : AccessPc → Option StatusCode
  | .release => some .eSuccess
  | .queueUnlock eRet | .leaveLock eRet | .leaveSignal eRet
  | .leaveUnlock eRet | .returned eRet => some eRet
  | _ => none

@[simp]
theorem leave_outcome (tryLock : Bool) (eRet : StatusCode) :
    (Queue.leave tryLock eRet).outcome = some eRet := by
  cases tryLock <;> rfl

namespace QueuePc

variable {ε : Type}

def outcome : QueuePc ε → Option StatusCode
  | .access _ _ pc => pc.outcome
  | _ => none

def call : QueuePc ε → Option (QueueCall ε)
  | .idle => none
  | .access op bTryLock _ => some (.access op bTryLock)
  | .emptyQueue _ => some .emptyQueue
  | .block aSide _ => some (.block aSide)
  | .unBlock aSide _ => some (.unBlock aSide)

end QueuePc

namespace Queue

variable {ι ε : Type}

def entries {β : Type} (number : Nat) (record : List (Nat × β)) : List (Nat × β) :=
  record.filter fun entry => entry.1 = number

theorem entries_append {β : Type} (number : Nat) (record : List (Nat × β)) (entry : Nat × β) :
    entries number (record ++ [entry]) = entries number record ++
      if entry.1 = number then [entry] else [] := by
  rw [entries, filter_append]
  congr 1
  by_cases same : entry.1 = number
  · rw [if_pos same]
    exact filter_cons_of_pos (decide_eq_true same)
  · rw [if_neg same]
    exact filter_cons_of_neg fun holds => same (of_decide_eq_true holds)

def storedBy (this : Queue ι ε) (number : Nat) : List (Nat × ε) := entries number this.stored

def handedTo (this : Queue ι ε) (number : Nat) : List (Nat × (Nat × ε)) :=
  entries number this.handed

/-- The call has stored or taken its element exactly when its status is
`eSuccess`. -/
def Settled (this : Queue ι ε) (number : Nat) (outcome : Option StatusCode) : QueueCall ε → Prop
  | .access (.put anyElement) _ =>
    this.handedTo number = [] ∧
      this.storedBy number = if outcome = some .eSuccess then [(number, anyElement)] else []
  | .access .get _ =>
    this.storedBy number = [] ∧
      (this.handedTo number).length = if outcome = some .eSuccess then 1 else 0
  | .emptyQueue => this.storedBy number = []
  | .block _ | .unBlock _ =>
    this.storedBy number = [] ∧ this.handedTo number = []

end Queue

namespace QueueSystem

open Queue

variable {ι ε : Type} [DecidableEq ι]

/-- What a step of a call does to the elements. -/
inductive Delivers (queue after : Queue ι ε) (number : Nat) (pc next : QueuePc ε) : Prop
  | keeps (stored : after.stored = queue.stored)
      (handed : after.handed = queue.handed) (container : after.fContainer = queue.fContainer)
      (outcome : next.outcome = pc.outcome ∨ pc.outcome = none ∧ next.outcome ≠ some .eSuccess)
  | stores (anyElement : ε) (bTryLock : Bool)
      (call : pc.call = some (.access (.put anyElement) bTryLock))
      (stored : after.stored = queue.stored ++ [(number, anyElement)])
      (handed : after.handed = queue.handed)
      (container : after.fContainer = queue.fContainer ++ [(number, anyElement)])
      (before : pc.outcome = none) (then' : next.outcome = some .eSuccess)
  | takes (front : Nat × ε) (bTryLock : Bool)
      (call : pc.call = some (.access .get bTryLock)) (stored : after.stored = queue.stored)
      (handed : after.handed = queue.handed ++ [(number, front)])
      (container : queue.fContainer = front :: after.fContainer)
      (before : pc.outcome = none) (then' : next.outcome = some .eSuccess)
  | empties (front : Nat × ε) (call : pc.call = some .emptyQueue)
      (stored : after.stored = queue.stored)
      (handed : after.handed = queue.handed ++ [(number, front)])
      (container : queue.fContainer = front :: after.fContainer) (then' : next.outcome = pc.outcome)

section

variable {queue after : Queue ι ε} {me : ι} {number : Nat} {pc next : QueuePc ε}

theorem GoStep.call (goes : GoStep queue me number pc after next) : next.call = pc.call := by
  cases goes <;> rfl

theorem AccessStep.delivers {op : Access ε} {tryLock : Bool} {pc next : AccessPc}
    (steps : AccessStep queue me number op tryLock pc after next) :
    Delivers queue after number (.access op tryLock pc) (.access op tryLock next) := by
  cases steps with
  | pushes anyElement puts =>
    cases puts
    exact .stores anyElement tryLock rfl rfl rfl rfl rfl rfl
  | pops gets front rest full =>
    cases gets
    exact .takes front tryLock rfl rfl rfl full rfl rfl
  | secondDead | drops =>
    refine .keeps rfl rfl rfl (Or.inr ⟨rfl, ?_⟩)
    dsimp only [QueuePc.outcome]
    rw [leave_outcome]
    nofun
  | queueUnlock eRet =>
    refine .keeps rfl rfl rfl (Or.inl ?_)
    dsimp only [QueuePc.outcome]
    rw [leave_outcome]
    rfl
  | dead | refused | giveBack | finds =>
    exact .keeps rfl rfl rfl (Or.inr ⟨rfl, nofun⟩)
  | noSlot | notAcquired =>
    refine .keeps rfl rfl rfl (Or.inr ⟨rfl, ?_⟩)
    cases op <;> nofun
  | _ => exact .keeps rfl rfl rfl (Or.inl rfl)

theorem GoStep.delivers (goes : GoStep queue me number pc after next) :
    Delivers queue after number pc next := by
  cases goes with
  | access steps => exact AccessStep.delivers steps
  | emptyQueue steps =>
    cases steps with
    | move lSize acquired front rest full =>
      exact .empties front rfl rfl rfl full rfl
    | _ => exact .keeps rfl rfl rfl (Or.inl rfl)
  | block steps | unBlock steps =>
    cases steps <;> exact .keeps rfl rfl rfl (Or.inl rfl)

/-! ## What a call has stored and taken -/

omit [DecidableEq ι] in
theorem Settled.congr {outcome : Option StatusCode} {call : QueueCall ε}
    (settled : queue.Settled number outcome call)
    (stored : after.storedBy number = queue.storedBy number)
    (handed : after.handedTo number = queue.handedTo number) :
    after.Settled number outcome call := by
  cases call with
  | access op bTryLock =>
    cases op with
    | put anyElement | get =>
      dsimp only [Queue.Settled] at settled ⊢
      rw [stored, handed]
      exact settled
  | emptyQueue | block | unBlock =>
    dsimp only [Queue.Settled] at settled ⊢
    first
      | rw [stored, handed]; exact settled
      | rw [stored]; exact settled

omit [DecidableEq ι] in
theorem Settled.outcome {outcome outcome' : Option StatusCode}
    {call : QueueCall ε} (settled : queue.Settled number outcome call)
    (same : outcome' = outcome ∨ outcome = none ∧ outcome' ≠ some .eSuccess) :
    queue.Settled number outcome' call := by
  rcases same with same | ⟨before, other⟩
  · rw [same]
    exact settled
  · cases call with
    | access op bTryLock =>
      cases op with
      | put anyElement | get =>
        dsimp only [Queue.Settled] at settled ⊢
        rw [if_neg other]
        rw [before, if_neg nofun] at settled
        exact settled
    | emptyQueue | block | unBlock => exact settled

omit [DecidableEq ι] in
theorem Delivers.others (delivers : Delivers queue after number pc next)
    {other : Nat} (different : number ≠ other) :
    after.storedBy other = queue.storedBy other ∧ after.handedTo other = queue.handedTo other := by
  cases delivers with
  | keeps stored handed container outcome =>
    exact ⟨by rw [storedBy, stored]; rfl, by rw [handedTo, handed]; rfl⟩
  | stores anyElement bTryLock call stored handed container before then' =>
    refine ⟨?_, by rw [handedTo, handed]; rfl⟩
    rw [storedBy, stored, entries_append, if_neg different, append_nil]
    rfl
  | takes front bTryLock call stored handed container before then' =>
    refine ⟨by rw [storedBy, stored]; rfl, ?_⟩
    rw [handedTo, handed, entries_append, if_neg different, append_nil]
    rfl
  | empties front call stored handed container then' =>
    refine ⟨by rw [storedBy, stored]; rfl, ?_⟩
    rw [handedTo, handed, entries_append, if_neg different, append_nil]
    rfl

omit [DecidableEq ι] in
theorem Delivers.settled (delivers : Delivers queue after number pc next) {call : QueueCall ε}
    (calls : pc.call = some call) (settled : queue.Settled number pc.outcome call) :
    after.Settled number next.outcome call := by
  cases delivers with
  | keeps stored handed container outcome =>
    refine Settled.congr (Settled.outcome settled outcome) ?_ ?_
    · rw [storedBy, stored]
      rfl
    · rw [handedTo, handed]
      rfl
  | stores anyElement bTryLock isPut stored handed container before then' =>
    rw [isPut] at calls
    cases calls
    dsimp only [Queue.Settled] at settled ⊢
    rw [before, if_neg nofun] at settled
    rw [then', if_pos rfl]
    refine ⟨?_, ?_⟩
    · rw [← settled.1, handedTo, handed]
      rfl
    · rw [storedBy, stored, entries_append, if_pos rfl]
      exact congrArg (· ++ _) settled.2
  | takes front bTryLock isGet stored handed container before then' =>
    rw [isGet] at calls
    cases calls
    dsimp only [Queue.Settled] at settled ⊢
    rw [before, if_neg nofun] at settled
    rw [then', if_pos rfl]
    refine ⟨?_, ?_⟩
    · rw [← settled.1, storedBy, stored]
      rfl
    · rw [handedTo, handed, entries_append, if_pos rfl, length_append]
      exact congrArg (· + 1) settled.2
  | empties front isEmpty stored handed container then' =>
    rw [isEmpty] at calls
    cases calls
    dsimp only [Queue.Settled] at settled ⊢
    rw [← settled, storedBy, stored]
    rfl

theorem GoStep.busy (goes : GoStep queue me number pc after next) : pc ≠ .idle := by
  cases goes <;> nofun

section

variable (delivers : Delivers queue after number pc next)
include delivers

omit [DecidableEq ι] in
theorem Delivers.mem_stored {entry : Nat × ε} (stored' : entry ∈ after.stored) :
    entry ∈ queue.stored ∨ (∃ bTryLock, pc.call = some (.access (.put entry.2) bTryLock)) ∧
        entry.1 = number ∧ next.outcome = some .eSuccess := by
  cases delivers with
  | keeps stored | takes _ _ _ stored | empties _ _ stored =>
    rw [stored] at stored'
    exact Or.inl stored'
  | stores anyElement bTryLock call stored handed container before then' =>
    rw [stored] at stored'
    rcases mem_append.mp stored' with old | isNew
    · exact Or.inl old
    · rw [mem_singleton.mp isNew]
      exact Or.inr ⟨⟨bTryLock, call⟩, rfl, then'⟩

omit [DecidableEq ι] in
theorem Delivers.mem_handed {taken : Nat × (Nat × ε)} (handed' : taken ∈ after.handed) :
    taken ∈ queue.handed ∨ taken.1 = number ∧ (pc.call = some .emptyQueue ∨
        (∃ bTryLock, pc.call = some (.access .get bTryLock)) ∧ next.outcome = some .eSuccess) := by
  cases delivers with
  | keeps _ handed | stores _ _ _ _ handed =>
    rw [handed] at handed'
    exact Or.inl handed'
  | takes front bTryLock call stored handed container before then' =>
    rw [handed] at handed'
    rcases mem_append.mp handed' with old | isNew
    · exact Or.inl old
    · rw [mem_singleton.mp isNew]
      exact Or.inr ⟨rfl, Or.inr ⟨⟨bTryLock, call⟩, then'⟩⟩
  | empties front call stored handed container then' =>
    rw [handed] at handed'
    rcases mem_append.mp handed' with old | isNew
    · exact Or.inl old
    · rw [mem_singleton.mp isNew]
      exact Or.inr ⟨rfl, Or.inl call⟩

omit [DecidableEq ι] in
theorem Delivers.success (before : pc.outcome = some .eSuccess) :
    next.outcome = some .eSuccess := by
  cases delivers with
  | keeps stored handed container outcome =>
    rcases outcome with same | ⟨none', _⟩
    · exact same.trans before
    · rw [none'] at before
      cases before
  | stores anyElement bTryLock call stored handed container none' then' =>
    exact then'
  | takes front bTryLock call stored handed container none' then' =>
    exact then'
  | empties front call stored handed container then' =>
    exact then'.trans before

end

omit [DecidableEq ι] in
theorem Delivers.order (delivers : Delivers queue after number pc next)
    (order : queue.stored = queue.handed.map Prod.snd ++ queue.fContainer) :
    after.stored = after.handed.map Prod.snd ++ after.fContainer := by
  cases delivers with
  | keeps stored handed container outcome =>
    rw [stored, handed, container, order]
  | stores anyElement bTryLock call stored handed container before then' =>
    rw [stored, handed, container, order, append_assoc]
  | takes front bTryLock call stored handed container before then' =>
    rw [stored, handed, order, container, map_append, append_assoc]
    rfl
  | empties front call stored handed container then' =>
    rw [stored, handed, order, container, map_append, append_assoc]
    rfl

end

/-- The call has returned `eSuccess` or is on its way to it. -/
def Reports (this : QueueSystem ι ε) (number : Nat) : Prop :=
  (number, .eSuccess) ∈ this.returned ∨
    ∃ c, this.numbers c = number ∧ (this.clients c).outcome = some .eSuccess

/-- Everything stored is handed out or in the container, in order. -/
structure DeliveryInv (this : QueueSystem ι ε) : Prop where
  order : this.queue.stored = this.queue.handed.map Prod.snd ++ this.queue.fContainer
  progress : ∀ c call, (this.clients c).call = some call → this.begun[this.numbers c]? = some call ∧
      this.queue.Settled (this.numbers c) (this.clients c).outcome call
  distinct : ∀ c c', this.clients c ≠ .idle → this.clients c' ≠ .idle →
    this.numbers c = this.numbers c' → c = c'
  finished : ∀ number eRet, (number, eRet) ∈ this.returned →
    (∃ op bTryLock, this.begun[number]? = some (.access op bTryLock) ∧
      this.queue.Settled number (some eRet) (.access op bTryLock)) ∧
    ∀ c, this.clients c ≠ .idle → this.numbers c ≠ number
  fresh : ∀ number, this.begun.length ≤ number →
    this.queue.storedBy number = [] ∧ this.queue.handedTo number = []
  origin : ∀ number anyElement, (number, anyElement) ∈ this.queue.stored →
      (∃ bTryLock, this.begun[number]? =
        some (.access (.put anyElement) bTryLock)) ∧ this.Reports number
  receiver : ∀ number element, (number, element) ∈ this.queue.handed →
    this.begun[number]? = some .emptyQueue ∨
      (∃ bTryLock, this.begun[number]? = some (.access .get bTryLock)) ∧ this.Reports number

section

variable {this after : QueueSystem ι ε}

omit [DecidableEq ι] in
theorem call_ne_none {pc : QueuePc ε} (busy : pc ≠ .idle) : ∃ call, pc.call = some call := by
  cases pc with
  | idle => exact absurd rfl busy
  | access op bTryLock pc => exact ⟨_, rfl⟩
  | emptyQueue pc => exact ⟨_, rfl⟩
  | block aSide pc => exact ⟨_, rfl⟩
  | unBlock aSide pc => exact ⟨_, rfl⟩

section

variable (inv : DeliveryInv this)
include inv

omit [DecidableEq ι] in
theorem DeliveryInv.number_lt {c : ι} (busy : this.clients c ≠ .idle) :
    this.numbers c < this.begun.length := by
  rcases call_ne_none busy with ⟨call, calls⟩
  exact (List.getElem?_eq_some_iff.mp (inv.progress c call calls).1).1

/-- A call that begins has not put or taken anything. -/
theorem DeliveryInv.call {client : ι} {call : QueueCall ε} (idle : this.clients client = .idle) :
    DeliveryInv { this.moveTo client call.begin with
      numbers := Function.update this.numbers client this.begun.length
      begun := this.begun ++ [call] } := by
  have stays : ∀ {number : Nat} {other : QueueCall ε},
      this.begun[number]? = some other → (this.begun ++ [call])[number]? = some other := by
    intro number other before
    have small := (List.getElem?_eq_some_iff.mp before).1
    rw [getElem?_append_left small]
    exact before
  have reports : ∀ number, this.Reports number → Reports { this.moveTo client call.begin with
        numbers := Function.update this.numbers client this.begun.length
        begun := this.begun ++ [call] } number := by
    intro number before
    rcases before with returned | ⟨c, same, outcome⟩
    · exact Or.inl returned
    · have different : c ≠ client := by
        intro isClient
        rw [isClient, idle] at outcome
        cases outcome
      refine Or.inr ⟨c, ?_, ?_⟩
      · dsimp only
        rw [update_of_ne different]
        exact same
      · dsimp only [moveTo]
        rw [update_of_ne different]
        exact outcome
  have busy : ∀ c, Function.update this.clients client call.begin c ≠
      .idle → c ≠ client → this.clients c ≠ .idle := by
    intro c moving different
    rw [update_of_ne different] at moving
    exact moving
  exact {
    order := inv.order
    progress := by
      intro c other calls
      dsimp only [moveTo] at calls ⊢
      by_cases same : c = client
      · rw [same, update_self] at calls
        rw [same, update_self, update_self]
        have isCall : call = other := by
          cases call <;> exact Option.some.inj calls
        rw [← isCall]
        refine ⟨getElem?_concat_length, ?_⟩
        have fresh := inv.fresh this.begun.length (Nat.le_refl _)
        have outcome : call.begin.outcome = none := by
          cases call <;> rfl
        rw [outcome]
        cases call with
        | access op bTryLock =>
          cases op with
          | put anyElement => exact ⟨fresh.2, fresh.1⟩
          | get => exact ⟨fresh.1, congrArg List.length fresh.2⟩
        | emptyQueue => exact fresh.1
        | block aSide | unBlock aSide => exact fresh
      · rw [update_of_ne same] at calls
        rw [update_of_ne same, update_of_ne same]
        have before := inv.progress c other calls
        exact ⟨stays before.1, before.2⟩
    distinct := by
      intro c c' first second same
      dsimp only [moveTo] at first second same
      have below : ∀ d, Function.update this.clients client call.begin d ≠ .idle → d ≠ client →
            Function.update this.numbers client this.begun.length d < this.begun.length := by
        intro d moving different
        rw [update_of_ne different]
        exact inv.number_lt (busy d moving different)
      by_cases isFirst : c = client
      · by_cases isSecond : c' = client
        · rw [isFirst, isSecond]
        · have small := below c' second isSecond
          rw [← same, isFirst, update_self] at small
          exact absurd small (Nat.lt_irrefl _)
      · by_cases isSecond : c' = client
        · have small := below c first isFirst
          rw [same, isSecond, update_self] at small
          exact absurd small (Nat.lt_irrefl _)
        · rw [update_of_ne isFirst, update_of_ne isSecond] at same
          exact inv.distinct c c' (busy c first isFirst) (busy c' second isSecond) same
    finished := by
      intro number eRet returned
      rcases inv.finished number eRet returned with ⟨⟨op, bTryLock, calls, settled⟩, others⟩
      refine ⟨⟨op, bTryLock, stays calls, settled⟩, ?_⟩
      intro c moving
      dsimp only [moveTo] at moving ⊢
      by_cases same : c = client
      · rw [same, update_self]
        have small := (List.getElem?_eq_some_iff.mp calls).1
        exact Nat.ne_of_gt small
      · rw [update_of_ne same]
        exact others c (busy c moving same)
    fresh := by
      intro number above
      apply inv.fresh number
      rw [length_append] at above
      exact Nat.le_of_succ_le above
    origin := by
      intro number anyElement stored
      rcases inv.origin number anyElement stored with ⟨⟨bTryLock, calls⟩, before⟩
      exact ⟨⟨bTryLock, stays calls⟩, reports number before⟩
    receiver := by
      intro number element handed
      rcases inv.receiver number element handed with calls | ⟨⟨bTryLock, calls⟩, before⟩
      · exact Or.inl (stays calls)
      · exact Or.inr ⟨⟨bTryLock, stays calls⟩, reports number before⟩ }

theorem DeliveryInv.return {client : ι} {record : List (Nat × StatusCode)}
    (busy : this.clients client ≠ .idle)
    (new' : ∀ entry, entry ∈ record → ∃ op bTryLock,
      (this.clients client).call = some (.access op bTryLock) ∧
      entry.1 = this.numbers client ∧
      (this.clients client).outcome = some entry.2)
    (known : (this.clients client).outcome = some .eSuccess →
      (this.numbers client, .eSuccess) ∈ record) :
    DeliveryInv { this.moveTo client .idle with
      returned := this.returned ++ record } := by
  have still : ∀ c, Function.update this.clients client .idle c ≠ .idle →
      c ≠ client ∧ this.clients c ≠ .idle := by
    intro c moving
    rw [update_apply] at moving
    split at moving
    · exact absurd rfl moving
    · rename_i different
      exact ⟨different, moving⟩
  have reports : ∀ number, this.Reports number → Reports { this.moveTo client .idle with
        returned := this.returned ++ record } number := by
    intro number before
    rcases before with returned | ⟨c, same, outcome⟩
    · exact Or.inl (mem_append_left _ returned)
    · by_cases isClient : c = client
      · rw [isClient] at same outcome
        rw [← same]
        exact Or.inl (mem_append_right _ (known outcome))
      · refine Or.inr ⟨c, same, ?_⟩
        dsimp only [moveTo]
        rw [update_of_ne isClient]
        exact outcome
  exact {
    order := inv.order
    progress := by
      intro c call calls
      dsimp only [moveTo] at calls ⊢
      by_cases same : c = client
      · rw [same, update_self] at calls
        cases calls
      · rw [update_of_ne same] at calls
        rw [update_of_ne same]
        exact inv.progress c call calls
    distinct := by
      intro c c' first second same
      exact inv.distinct c c' (still c first).2 (still c' second).2 same
    finished := by
      intro number eRet returned
      rcases mem_append.mp returned with old | isNew
      · rcases inv.finished number eRet old with ⟨settled, others⟩
        exact ⟨settled, fun c moving => others c (still c moving).2⟩
      · rcases new' _ isNew with ⟨op, bTryLock, calls, same, outcome⟩
        have progress := inv.progress client _ calls
        dsimp only at same outcome
        rw [same]
        refine ⟨⟨op, bTryLock, progress.1, ?_⟩, ?_⟩
        · rw [← outcome]
          exact progress.2
        · intro c moving sameNumber
          exact (still c moving).1 (inv.distinct c client (still c moving).2 busy sameNumber)
    fresh := inv.fresh
    origin := by
      intro number anyElement stored
      rcases inv.origin number anyElement stored with ⟨calls, before⟩
      exact ⟨calls, reports number before⟩
    receiver := by
      intro number element handed
      rcases inv.receiver number element handed with calls | ⟨calls, before⟩
      · exact Or.inl calls
      · exact Or.inr ⟨calls, reports number before⟩ }

/-- What a step stores or hands out goes with its call. -/
theorem DeliveryInv.go {client : ι} {queue : Queue ι ε} {next : QueuePc ε}
    (goes : GoStep this.queue client (this.numbers client)
      (this.clients client) queue next) :
    DeliveryInv { this.moveTo client next with queue := queue } := by
  have delivers := goes.delivers
  have sameCall := goes.call
  have still : ∀ c, Function.update this.clients client next c ≠ .idle →
      this.clients c ≠ .idle := by
    intro c moving idle
    rw [update_apply] at moving
    split at moving
    · rename_i same
      rw [← same, idle] at sameCall
      rcases call_ne_none moving with ⟨call, calls⟩
      rw [sameCall] at calls
      cases calls
    · exact moving idle
  have reports : ∀ number, this.Reports number →
      Reports { this.moveTo client next with queue := queue } number := by
    intro number before
    rcases before with returned | ⟨c, same, outcome⟩
    · exact Or.inl returned
    · refine Or.inr ⟨c, same, ?_⟩
      dsimp only [moveTo]
      rw [update_apply]
      split
      · rename_i isClient
        rw [isClient] at outcome
        exact delivers.success outcome
      · exact outcome
  have settles : ∀ number outcome call, number ≠ this.numbers client →
      this.queue.Settled number outcome call → queue.Settled number outcome call := by
    intro number outcome call different settled
    rcases delivers.others (Ne.symm different) with ⟨stored, handed⟩
    exact Settled.congr settled stored handed
  have busy := goes.busy
  have succeeds : next.outcome = some .eSuccess →
      Reports { this.moveTo client next with queue := queue } (this.numbers client) := by
    intro outcome
    refine Or.inr ⟨client, rfl, ?_⟩
    dsimp only [moveTo]
    rw [update_self]
    exact outcome
  exact {
    order := delivers.order inv.order
    progress := by
      intro c call calls
      dsimp only [moveTo] at calls ⊢
      by_cases same : c = client
      · rw [same, update_self] at calls ⊢
        rw [sameCall] at calls
        have before := inv.progress client call calls
        exact ⟨before.1, delivers.settled calls before.2⟩
      · rw [update_of_ne same] at calls ⊢
        have before := inv.progress c call calls
        refine ⟨before.1, settles _ _ _ ?_ before.2⟩
        intro sameNumber
        apply same
        apply inv.distinct c client _ busy sameNumber
        intro idle
        rw [idle] at calls
        cases calls
    distinct := by
      intro c c' first second same
      exact inv.distinct c c' (still c first) (still c' second) same
    finished := by
      intro number eRet returned
      rcases inv.finished number eRet returned with ⟨⟨op, bTryLock, calls, settled⟩, others⟩
      have different := Ne.symm (others client busy)
      exact ⟨⟨op, bTryLock, calls, settles _ _ _ different settled⟩,
        fun c moving => others c (still c moving)⟩
    fresh := by
      intro number above
      have different : this.numbers client ≠ number :=
        Nat.ne_of_lt (Nat.lt_of_lt_of_le (inv.number_lt busy) above)
      rcases delivers.others different with ⟨stored, handed⟩
      have before := inv.fresh number above
      exact ⟨stored.trans before.1, handed.trans before.2⟩
    origin := by
      intro number anyElement stored
      rcases delivers.mem_stored stored with old | ⟨⟨bTryLock, call⟩, same, outcome⟩
      · rcases inv.origin number anyElement old with ⟨calls, before⟩
        exact ⟨calls, reports number before⟩
      · dsimp only at same call
        rw [same]
        exact ⟨⟨bTryLock, (inv.progress client _ call).1⟩, succeeds outcome⟩
    receiver := by
      intro number element handed
      rcases delivers.mem_handed handed with old | ⟨same, call | ⟨⟨bTryLock, call⟩, outcome⟩⟩
      · rcases inv.receiver number element old with calls | ⟨calls, before⟩
        · exact Or.inl calls
        · exact Or.inr ⟨calls, reports number before⟩
      · dsimp only at same
        rw [same]
        exact Or.inl (inv.progress client _ call).1
      · dsimp only at same
        rw [same]
        exact Or.inr ⟨⟨bTryLock, (inv.progress client _ call).1⟩, succeeds outcome⟩ }

end

omit [DecidableEq ι] in
theorem busy_of_returns {pc : QueuePc ε} {eRet : Option StatusCode}
    (back : returns pc = some eRet) : pc ≠ .idle := by
  intro idle
  rw [idle] at back
  cases back

omit [DecidableEq ι] in
theorem returns_status {pc : QueuePc ε} {eRet : StatusCode} (back : returns pc = some (some eRet)) :
    ∃ op bTryLock, pc = .access op bTryLock (.returned eRet) := by
  unfold returns at back
  split at back <;> cases back
  exact ⟨_, _, rfl⟩

omit [DecidableEq ι] in
theorem returns_void {pc : QueuePc ε} (back : returns pc = some none) : pc.outcome = none := by
  unfold returns at back
  split at back <;> cases back <;> rfl

theorem DeliveryInv.step {move : QueueMove ι ε} (inv : DeliveryInv this)
    (steps : Step this move after) : DeliveryInv after := by
  cases steps with
  | call client call idle => exact inv.call idle
  | status client interrupted eRet back =>
    rcases returns_status back with ⟨op, bTryLock, place⟩
    refine inv.return (busy_of_returns back) ?_ ?_
    · intro entry isNew
      rw [mem_singleton.mp isNew, place]
      exact ⟨op, bTryLock, rfl, rfl, rfl⟩
    · intro outcome
      rw [place] at outcome
      cases outcome
      exact mem_singleton_self _
  | void client interrupted back =>
    have silent : (this.clients client).outcome = some .eSuccess →
        (this.numbers client, StatusCode.eSuccess) ∈ ([] : List (Nat × StatusCode)) := by
      intro outcome
      rw [returns_void back] at outcome
      cases outcome
    have returned : DeliveryInv { this.moveTo client .idle with
        returned := this.returned ++ [] } :=
      inv.return (busy_of_returns back) (fun _ isNew => absurd isNew not_mem_nil) silent
    rw [append_nil] at returned
    exact returned
  | go client interrupted queue next goes => exact inv.go goes

omit [DecidableEq ι] in
theorem new_delivery {semaMax lQueueSize : Nat}
    (created : new semaMax lQueueSize = some this) : DeliveryInv this := by
  unfold new at created
  split at created <;> cases created
  exact {
    order := rfl
    progress := fun _ _ calls => nomatch calls
    distinct := fun _ _ busy => absurd rfl busy
    finished := fun _ _ returned => absurd returned not_mem_nil
    fresh := fun _ _ => ⟨rfl, rfl⟩
    origin := fun _ _ stored => absurd stored not_mem_nil
    receiver := fun _ _ handed => absurd handed not_mem_nil }

end

/-- What was put is stored or was handed out once, in the order in which it
was stored; `numbers` are those of calls. -/
structure Delivered (this : QueueSystem ι ε) : Prop where
  order : this.queue.stored = this.queue.handed.map Prod.snd ++ this.queue.fContainer
  once : (this.queue.stored.map Prod.fst).Nodup
  /-- A `Put` that reported success has stored its element. -/
  put : ∀ number anyElement bTryLock,
    this.begun[number]? = some (.access (.put anyElement) bTryLock) →
      (number, .eSuccess) ∈ this.returned → (number, anyElement) ∈ this.queue.stored
  /-- A `Get` that reported success has taken one element. -/
  get : ∀ number bTryLock, this.begun[number]? = some (.access .get bTryLock) →
      (number, .eSuccess) ∈ this.returned →
        ∃ element, entries number this.queue.handed = [(number, element)]
  /-- Another status comes from a call that did neither. -/
  failed : ∀ number eRet, (number, eRet) ∈ this.returned →
    eRet ≠ .eSuccess → entries number this.queue.stored = [] ∧ entries number this.queue.handed = []
  /-- Every element comes from a `Put` that succeeds. -/
  origin : ∀ number anyElement, (number, anyElement) ∈ this.queue.stored →
      (∃ bTryLock, this.begun[number]? =
        some (.access (.put anyElement) bTryLock)) ∧ this.Reports number
  /-- Every element goes to `EmptyQueue` or to a `Get` that succeeds. -/
  receiver : ∀ number element, (number, element) ∈ this.queue.handed →
    this.begun[number]? = some .emptyQueue ∨
      (∃ bTryLock, this.begun[number]? = some (.access .get bTryLock)) ∧ this.Reports number

omit [DecidableEq ι] in
theorem nodup_of_entries {β : Type} {record : List (Nat × β)}
    (single : ∀ number, (entries number record).length ≤ 1) :
    (record.map Prod.fst).Nodup := by
  apply nodup_iff_count.mpr
  intro number
  have counts : (record.map Prod.fst).count number = (entries number record).length := by
    rw [entries, ← countP_eq_length_filter, List.count, countP_map]
    rfl
  rw [counts]
  exact single number

section

variable {this : QueueSystem ι ε}

omit [DecidableEq ι] in
theorem DeliveryInv.single (inv : DeliveryInv this) (number : Nat) :
    (this.queue.storedBy number).length ≤ 1 := by
  by_cases some' : this.queue.storedBy number = []
  · rw [some']
    exact Nat.zero_le 1
  · rcases exists_mem_of_ne_nil _ some' with ⟨entry, member⟩
    rcases mem_filter.mp member with ⟨stored, same⟩
    have isNumber : entry.1 = number := of_decide_eq_true same
    rcases inv.origin entry.1 entry.2 stored with
      ⟨⟨bTryLock, calls⟩, returned | ⟨c, sameNumber, outcome⟩⟩
    · rw [isNumber] at returned calls
      rcases inv.finished number _ returned with ⟨⟨op, mode, alsoCalls, settled⟩, _⟩
      rw [calls] at alsoCalls
      cases alsoCalls
      rw [settled.2, if_pos rfl]
      exact Nat.le_refl 1
    · have busy : this.clients c ≠ .idle := by
        intro idle
        rw [idle] at outcome
        cases outcome
      rcases call_ne_none busy with ⟨call, inCall⟩
      have progress := inv.progress c call inCall
      rw [sameNumber, calls] at progress
      cases progress.1
      have settled := progress.2.2
      rw [outcome, if_pos rfl, isNumber] at settled
      rw [settled]
      exact Nat.le_refl 1

omit [DecidableEq ι] in
theorem DeliveryInv.delivered (inv : DeliveryInv this) : Delivered this where
  order := inv.order
  once := nodup_of_entries inv.single
  put := by
    intro number anyElement bTryLock calls returned
    rcases inv.finished number _ returned with ⟨⟨op, mode, alsoCalls, settled⟩, _⟩
    rw [calls] at alsoCalls
    cases alsoCalls
    have member : (number, anyElement) ∈ this.queue.storedBy number := by
      rw [settled.2, if_pos rfl]
      exact mem_singleton_self _
    exact (mem_filter.mp member).1
  get := by
    intro number bTryLock calls returned
    rcases inv.finished number _ returned with ⟨⟨op, mode, alsoCalls, settled⟩, _⟩
    rw [calls] at alsoCalls
    cases alsoCalls
    have one := settled.2
    rw [if_pos rfl] at one
    rcases length_eq_one_iff.mp one with ⟨entry, only⟩
    have member : entry ∈ this.queue.handedTo number := by
      rw [only]
      exact mem_singleton_self entry
    have same : entry.1 = number := of_decide_eq_true (mem_filter.mp member).2
    refine ⟨entry.2, ?_⟩
    rw [← same]
    rw [← same] at only
    exact only
  failed := by
    intro number eRet returned other
    rcases inv.finished number _ returned with ⟨⟨op, mode, calls, settled⟩, _⟩
    have notSuccess : some eRet ≠ some StatusCode.eSuccess :=
      fun same => other (Option.some.inj same)
    cases op with
    | put anyElement =>
      have stored := settled.2
      rw [if_neg notSuccess] at stored
      exact ⟨stored, settled.1⟩
    | get =>
      have handed := settled.2
      rw [if_neg notSuccess] at handed
      exact ⟨settled.1, length_eq_zero_iff.mp handed⟩
  origin := inv.origin
  receiver := inv.receiver

/-- In every run of any number of clients. -/
theorem new_run_delivered {semaMax lQueueSize : Nat} {start : QueueSystem ι ε}
    {moves : List (QueueMove ι ε)} (created : new semaMax lQueueSize = some start)
    (runs : run step start moves = some this) : Delivered this := by
  have keeps : ∀ (before : QueueSystem ι ε) move after,
      DeliveryInv before → before.step move = some after → DeliveryInv after :=
    fun _ _ _ inv steps => inv.step (step_eq_some steps)
  exact (run_invariant_always keeps (new_delivery created) runs).delivered

end

def putAndGet : List (QueueMove Bool Nat) :=
  [QueueMove.call false (.access (.put 5) true)] ++ List.replicate 10 (QueueMove.go false false) ++
    [QueueMove.call true (.access .get false)] ++
    List.replicate 16 (QueueMove.go true false)

theorem new_run_delivered_get :
    ∃ start this : QueueSystem Bool Nat, new 2147483647 1 = some start ∧
      run step start putAndGet = some this ∧
      this.queue.handed = [(1, (0, 5))] ∧
      this.returned = [(0, .eSuccess), (1, .eSuccess)] ∧
      Delivered this := by
  have delivered : ∀ start this : QueueSystem Bool Nat,
      new 2147483647 1 = some start → run step start putAndGet = some this → Delivered this :=
    fun _ _ created runs => new_run_delivered created runs
  exact ⟨_, _, rfl, rfl, rfl, rfl, delivered _ _ rfl rfl⟩

end QueueSystem

end Coast
