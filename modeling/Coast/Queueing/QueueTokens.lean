import Coast.Library.Ownership
import Coast.Queueing.QueueLocks

/-!
# The tokens of the queue

A token is free in one of the semaphores or held by a call.  A call that finds
its side blocked drops its token, `Block` makes tokens for the callers it
waits for, and `EmptyQueue` moves elements for which it got no token; in runs
without these steps no token is lost or made.
-/

namespace Coast

open Runs Nat Function

def AccessPc.holdsSlot : AccessPc → Bool
  | .aliveCheck | .giveBack | .secondLock | .secondRead | .queueLock
  | .container => true
  | _ => false

namespace QueuePc

variable {ε : Type}

/-- The tokens of a side that a call holds; from the change of the container
to the `Release` it holds one of the other kind. -/
def tokens (side : QueueSide) : QueuePc ε → Nat
  | .access op _ .release => if op.side.other = side then 1 else 0
  | .access op _ pc => if op.side = side ∧ pc.holdsSlot then 1 else 0
  | .emptyQueue (.move _ acquired) =>
    if side = .get ∧ acquired then 1 else 0
  | .emptyQueue (.release _) => if side = .put then 1 else 0
  | _ => 0

def heldTokens (pc : QueuePc ε) : Nat := pc.tokens .put + pc.tokens .get

end QueuePc

namespace QueueSystem

open Queue

variable {ι ε : Type} [DecidableEq ι]

/-! ## A step of a call -/

/-- A call that has a token finds its side open, `EmptyQueue` finds a token
for every element, and `Block` finds no caller to wait for. -/
def KeepsTokens (queue : Queue ι ε) : QueuePc ε → Prop
  | .access op _ .secondRead => queue.feBlocked.has op.side = false
  | .emptyQueue (.acquire (_ + 1)) => 0 < queue.fSema .get
  | .block _ (.loop side _) => queue.fBlockingCount side = 0
  | _ => True

/-- `EmptyQueue` moves an element for which it got no token. -/
def WithoutToken : QueuePc ε → Prop
  | .emptyQueue (.move _ false) => True
  | _ => False

/-- No token is lost or made, and a used slot goes with an element. -/
structure Balanced (queue after : Queue ι ε) (pc next : QueuePc ε) : Prop where
  total : after.fSema .put + after.fSema .get + next.heldTokens =
    queue.fSema .put + queue.fSema .get + pc.heldTokens
  full : after.fSema .get + next.tokens .get + queue.fContainer.length =
    queue.fSema .get + pc.tokens .get + after.fContainer.length

section

variable {queue after : Queue ι ε} {me : ι} {number : Nat} {pc next : QueuePc ε}

omit [DecidableEq ι] in
theorem Balanced.same (sema : after.fSema = queue.fSema)
    (container : after.fContainer = queue.fContainer)
    (tokens : ∀ side, next.tokens side = pc.tokens side) :
    Balanced queue after pc next := by
  refine ⟨?_, ?_⟩
  · rw [sema, QueuePc.heldTokens, tokens, tokens]
    rfl
  · rw [sema, container, tokens]

omit [DecidableEq ι] in
theorem acquireSema_balanced {side : QueueSide} (slot : 0 < queue.fSema side)
    (takes : next.tokens side = pc.tokens side + 1)
    (others : next.tokens side.other = pc.tokens side.other) :
    Balanced queue (queue.acquireSema side) pc next := by
  cases side with
  | put =>
    refine ⟨?_, ?_⟩ <;>
      simp only [acquireSema, QueuePc.heldTokens, update_self, update_of_ne, ne_eq, reduceCtorEq,
        not_false_eq_true, QueueSide.other] at takes others ⊢ <;>
      omega
  | get =>
    refine ⟨?_, ?_⟩ <;>
      simp only [acquireSema, QueuePc.heldTokens, update_self, update_of_ne, ne_eq, reduceCtorEq,
        not_false_eq_true, QueueSide.other] at takes others ⊢ <;>
      omega

omit [DecidableEq ι] in
theorem releaseSema_balanced {side : QueueSide}
    (room : queue.fSema .put + queue.fSema .get + pc.heldTokens ≤ queue.semaMax)
    (gives : pc.tokens side = next.tokens side + 1)
    (others : next.tokens side.other = pc.tokens side.other) :
    Balanced queue (queue.releaseSema side) pc next := by
  have fits : queue.fSema side < queue.semaMax := by
    cases side <;>
      simp only [QueuePc.heldTokens, QueueSide.other] at room gives others <;>
      omega
  cases side with
  | put =>
    refine ⟨?_, ?_⟩ <;>
      simp only [releaseSema, if_pos fits, QueuePc.heldTokens, update_self, update_of_ne, ne_eq,
        reduceCtorEq, not_false_eq_true, QueueSide.other] at gives others ⊢ <;>
      omega
  | get =>
    refine ⟨?_, ?_⟩ <;>
      simp only [releaseSema, if_pos fits, QueuePc.heldTokens, update_self, update_of_ne, ne_eq,
        reduceCtorEq, not_false_eq_true, QueueSide.other] at gives others ⊢ <;>
      omega

theorem tokens_leave {op : Access ε} {tryLock : Bool} {eRet : StatusCode} (side : QueueSide) :
    (QueuePc.access op tryLock (leave tryLock eRet)).tokens side = 0 := by
  cases tryLock <;> exact if_neg fun both => nomatch both.2

theorem AccessStep.balanced {op : Access ε} {tryLock : Bool}
    {pc next : AccessPc} (isAlive : queue.fAlive = true)
    (keeps : KeepsTokens queue (.access op tryLock pc))
    (room : queue.fSema .put + queue.fSema .get +
      (QueuePc.access op tryLock pc).heldTokens ≤ queue.semaMax)
    (used : (QueuePc.access op tryLock pc).tokens .get ≤ queue.fContainer.length)
    (steps : AccessStep queue me number op tryLock pc after next) :
    Balanced queue after (.access op tryLock pc) (.access op tryLock next) := by
  cases steps with
  | tryAcquire slot | acquire slot =>
    apply acquireSema_balanced slot <;> cases op <;> rfl
  | giveBack => apply releaseSema_balanced room <;> cases op <;> rfl
  | release => apply releaseSema_balanced room <;> cases op <;> rfl
  | secondDead notAlive =>
    rw [isAlive] at notAlive
    cases notAlive
  | drops blocked =>
    rw [keeps] at blocked
    cases blocked
  | pushes anyElement puts =>
    cases puts
    refine ⟨rfl, ?_⟩
    dsimp only [pushBack]
    rw [List.length_append]
    exact add_right_comm _ _ _
  | pops gets front rest full =>
    cases gets
    refine ⟨rfl, ?_⟩
    dsimp only [popFront]
    rw [full]
    exact (add_right_comm _ 1 _).symm
  | finds gets empty =>
    cases gets
    rw [empty] at used
    exact absurd used (not_succ_le_zero 0)
  | queueUnlock eRet =>
    refine .same rfl rfl ?_
    intro side
    rw [tokens_leave]
    exact (if_neg fun both => nomatch both.2).symm
  | _ => exact .same rfl rfl fun _ => rfl

theorem EmptyStep.balanced {pc next : EmptyPc} (keeps : KeepsTokens queue (.emptyQueue pc))
    (had : ¬ WithoutToken (.emptyQueue pc : QueuePc ε))
    (room : queue.fSema .put + queue.fSema .get +
      (QueuePc.emptyQueue pc : QueuePc ε).heldTokens ≤ queue.semaMax)
    (steps : EmptyStep queue me number pc after next) :
    Balanced queue after (.emptyQueue pc) (.emptyQueue next) ∧
      ¬ WithoutToken (.emptyQueue next : QueuePc ε) := by
  cases steps with
  | acquire lSize slot => exact ⟨acquireSema_balanced slot rfl rfl, id⟩
  | noSlot lSize empty =>
    dsimp only [KeepsTokens] at keeps
    rw [empty] at keeps
    exact absurd keeps (lt_irrefl 0)
  | move lSize acquired front rest full =>
    cases acquired with
    | false => exact absurd trivial had
    | true =>
      refine ⟨⟨rfl, ?_⟩, id⟩
      dsimp only [popFront]
      rw [full]
      exact (add_right_comm _ 1 _).symm
  | release lSize => exact ⟨releaseSema_balanced room rfl rfl, id⟩
  | _ => exact ⟨.same rfl rfl fun _ => rfl, id⟩

theorem BlockStep.balanced {aSide : BlockingSide} {pc next : BlockPc}
    (keeps : KeepsTokens queue (.block aSide pc : QueuePc ε))
    (steps : BlockStep queue me aSide pc after next) :
    Balanced queue after (.block aSide pc) (.block aSide next) := by
  cases steps with
  | release side sides left => exact absurd keeps left
  | _ => exact .same rfl rfl fun _ => rfl

theorem GoStep.balanced (isAlive : queue.fAlive = true)
    (keeps : KeepsTokens queue pc) (had : ¬ WithoutToken pc)
    (room : queue.fSema .put + queue.fSema .get + pc.heldTokens ≤ queue.semaMax)
    (used : pc.tokens .get ≤ queue.fContainer.length)
    (goes : GoStep queue me number pc after next) :
    Balanced queue after pc next ∧ ¬ WithoutToken next := by
  cases goes with
  | access steps =>
    exact ⟨AccessStep.balanced isAlive keeps room used steps, id⟩
  | emptyQueue steps => exact EmptyStep.balanced keeps had room steps
  | block steps => exact ⟨BlockStep.balanced keeps steps, id⟩
  | unBlock steps =>
    cases steps <;> exact ⟨.same rfl rfl fun _ => rfl, id⟩

theorem GoStep.constant (goes : GoStep queue me number pc after next) :
    after.fAlive = queue.fAlive ∧ after.semaMax = queue.semaMax := by
  cases goes with
  | access steps | emptyQueue steps | block steps | unBlock steps =>
    cases steps <;> exact ⟨rfl, rfl⟩

end

def KeepsTokensMove (this : QueueSystem ι ε) : QueueMove ι ε → Prop
  | .call _ _ => True
  | .go client _ => KeepsTokens this.queue (this.clients client)

/-- Tokens, held or not, add up to the capacity. -/
structure TokenInv [Fintype ι] (lQueueSize : Nat) (queue : Queue ι ε)
    (clients : ι → QueuePc ε) : Prop where
  isAlive : queue.fAlive = true
  fits : lQueueSize ≤ queue.semaMax
  had : ∀ c, ¬ WithoutToken (clients c)
  total : queue.fSema .put + queue.fSema .get + ∑ c, (clients c).heldTokens = lQueueSize
  full : queue.fSema .get + ∑ c, (clients c).tokens .get = queue.fContainer.length

omit [DecidableEq ι] in
theorem tokens_begin (call : QueueCall ε) (side : QueueSide) : call.begin.tokens side = 0 := by
  cases call with
  | access op bTryLock => exact if_neg fun both => nomatch both.2
  | emptyQueue | block | unBlock => rfl

omit [DecidableEq ι] in
theorem tokens_of_returns {pc : QueuePc ε} {eRet : Option StatusCode}
    (back : returns pc = some eRet) (side : QueueSide) :
    pc.tokens side = 0 := by
  unfold returns at back
  split at back
  · exact if_neg fun both => nomatch both.2
  · rfl
  · rfl
  · rfl
  · cases back

section

variable [Fintype ι] {lQueueSize : Nat} {queue after : Queue ι ε}
  {clients : ι → QueuePc ε} {me : ι} {number : Nat} {next : QueuePc ε}

theorem TokenInv.calm (inv : TokenInv lQueueSize queue clients)
    (before : ∀ side, (clients me).tokens side = 0)
    (then' : ∀ side, next.tokens side = 0) (had : ¬ WithoutToken next) :
    TokenInv lQueueSize queue (Function.update clients me next) where
  isAlive := inv.isAlive
  fits := inv.fits
  had := by
    intro c
    rw [update_apply]
    split
    · exact had
    · exact inv.had c
  total := by
    have sums := Counts.sum_update QueuePc.heldTokens clients me next
    simp only [QueuePc.heldTokens, before, then', add_zero] at sums
    simp only [QueuePc.heldTokens, sums]
    exact inv.total
  full := by
    have sums := Counts.sum_update (QueuePc.tokens .get) clients me next
    rw [before, then', add_zero, add_zero] at sums
    rw [sums]
    exact inv.full

theorem TokenInv.go (inv : TokenInv lQueueSize queue clients)
    (keeps : KeepsTokens queue (clients me))
    (goes : GoStep queue me number (clients me) after next) :
    TokenInv lQueueSize after (Function.update clients me next) := by
  have room : queue.fSema .put + queue.fSema .get + (clients me).heldTokens ≤ queue.semaMax := by
    have mine := Counts.single_le_sum QueuePc.heldTokens clients me
    have total := inv.total
    have fits := inv.fits
    omega
  have used : (clients me).tokens .get ≤ queue.fContainer.length := by
    have mine := Counts.single_le_sum (QueuePc.tokens .get) clients me
    have full := inv.full
    omega
  rcases goes.balanced inv.isAlive keeps (inv.had me) room used with ⟨balanced, had⟩
  exact {
    isAlive := goes.constant.1.trans inv.isAlive
    fits := inv.fits.trans_eq goes.constant.2.symm
    had := by
      intro c
      rw [update_apply]
      split
      · exact had
      · exact inv.had c
    total := by
      have sums := Counts.sum_update QueuePc.heldTokens clients me next
      have total := inv.total
      have step := balanced.total
      omega
    full := by
      have sums := Counts.sum_update (QueuePc.tokens .get) clients me next
      have full := inv.full
      have step := balanced.full
      omega }

end

section

variable [Fintype ι] {lQueueSize : Nat} {this after : QueueSystem ι ε}

theorem TokenInv.step {move : QueueMove ι ε} (inv : TokenInv lQueueSize this.queue this.clients)
    (keeps : KeepsTokensMove this move) (steps : Step this move after) :
    TokenInv lQueueSize after.queue after.clients := by
  cases steps with
  | call client call idle =>
    apply inv.calm
    · intro side
      rw [idle]
      rfl
    · exact tokens_begin call
    · cases call <;> exact id
  | status client interrupted eRet back | void client interrupted back =>
    exact inv.calm (tokens_of_returns back) (fun _ => rfl) id
  | go client interrupted queue next goes => exact inv.go keeps goes

omit [DecidableEq ι] in
/-- A new queue has as many tokens as slots. -/
theorem new_tokens {semaMax : Nat} (fits : lQueueSize ≤ semaMax)
    (isUnsigned : lQueueSize < 4294967296) (created : new semaMax lQueueSize = some this) :
    TokenInv lQueueSize this.queue this.clients := by
  unfold new at created
  split at created <;> cases created
  exact {
    isAlive := rfl
    fits := fits
    had := fun _ => id
    total := by
      have none' : ∑ _c : ι, (QueuePc.idle : QueuePc ε).heldTokens = 0 :=
        Finset.sum_eq_zero fun _ _ => rfl
      dsimp only
      rw [none', mod_eq_of_lt isUnsigned]
      rfl
    full := by
      have none' : ∑ _c : ι, (QueuePc.idle : QueuePc ε).tokens .get = 0 :=
        Finset.sum_eq_zero fun _ _ => rfl
      dsimp only
      rw [none']
      rfl }

end

end QueueSystem

end Coast
