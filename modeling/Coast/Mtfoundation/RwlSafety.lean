import Coast.Mtfoundation.Rwl
import Mathlib.Algebra.Ring.Nat

/-!
# Safety of the read/write lock

The counts say how many threads are where, a writer is alone, and whenever
the lock is free a thread that waits has been woken.
-/

namespace Coast

open Runs Counts Function Ownership

namespace RwlockT

def waits (writer : Bool) : RwlPc → Nat
  | .blocked w | .woken w | .resumed w => if w = writer then 1 else 0
  | _ => 0

def Pending : RwlPc → Prop
  | .woken _ | .resumed _ => True
  | _ => False

variable {ι : Type} [Fintype ι]

/-- The counters are what the threads hold and wait for. -/
structure Counted (rActive rWait wActive wWait : Int) (threads : ι → RwlThread) : Prop where
  rActive : rActive = ∑ i, (threads i).reads
  rWait : rWait = ∑ i, waits false (threads i).pc
  wActive : wActive = ∑ i, (threads i).writes
  wWait : wWait = ∑ i, waits true (threads i).pc

/-- The counts are right, a writer is alone, and locks are given back by the
thread that holds them. -/
structure Core (this : RwlockT ι) : Prop where
  counted : Counted this.rActive this.rWait this.wActive this.wWait this.threads
  alone : this.wActive = 0 ∨ this.wActive = 1 ∧ this.rActive = 0
  matching : ∀ i op, (this.threads i).pc = .entering op ∨
    (this.threads i).pc = .inside op → Matching (this.threads i) op

/-- Readers are only blocked by a writer; writers that are blocked while the
lock is free have somebody in front of them. -/
structure Inv (this : RwlockT ι) : Prop where
  core : Core this
  readers : this.wActive = 0 → ∀ i, (this.threads i).pc ≠ .blocked false
  writers : this.wActive = 0 → this.rActive = 0 →
    ∀ i, (this.threads i).pc = .blocked true → ∃ j, Pending (this.threads j).pc

/-- A writer is alone, and no wake-up is missing when the lock is free. -/
structure Safe (this : RwlockT ι) : Prop where
  counted : Counted this.rActive this.rWait this.wActive this.wWait this.threads
  alone : ∀ i, 0 < (this.threads i).writes →
    (∀ j, (this.threads j).reads = 0) ∧ (this.threads i).writes = 1 ∧
      ∀ j, 0 < (this.threads j).writes → j = i
  woken : this.rActive = 0 → this.wActive = 0 →
    0 < this.rWait ∨ 0 < this.wWait → ∃ j, Pending (this.threads j).pc

variable {writer : Bool}

theorem waits_eq_one {pc : RwlPc} (some_ : 0 < waits writer pc) :
    pc = .blocked writer ∨ Pending pc := by
  cases pc with
  | blocked w =>
    simp only [waits] at some_
    split_ifs at some_ with same
    · exact .inl (same ▸ rfl)
    · exact absurd some_ (Nat.lt_irrefl 0)
  | woken w | resumed w => exact .inr trivial
  | idle | entering op | inside op => exact absurd some_ (Nat.lt_irrefl 0)

theorem exists_waits {threads : ι → RwlThread} (some_ : 0 < ∑ i, waits writer (threads i).pc) :
    ∃ i, (threads i).pc = .blocked writer ∨ Pending (threads i).pc := by
  rcases Finset.sum_pos_iff.mp some_ with ⟨i, _, positive⟩
  exact ⟨i, waits_eq_one positive⟩

theorem Inv.safe {this : RwlockT ι} (inv : Inv this) : Safe this where
  counted := inv.core.counted
  alone := by
    classical
    intro i positive
    have writes := inv.core.counted.wActive
    have reads := inv.core.counted.rActive
    have mine := single_le_sum RwlThread.writes this.threads i
    rcases inv.core.alone with none' | ⟨one, noReader⟩
    · omega
    · refine ⟨?_, by omega, ?_⟩
      · intro j
        have := single_le_sum RwlThread.reads this.threads j
        omega
      · intro j also
        by_contra other
        have two := Finset.add_le_sum (fun k _ => Nat.zero_le (this.threads k).writes)
          (Finset.mem_univ j) (Finset.mem_univ i) other
        omega
  woken := by
    intro noReader noWriter someWait
    rcases someWait with readers | writers
    · rw [inv.core.counted.rWait] at readers
      rcases exists_waits (by exact_mod_cast readers) with ⟨i, blocked | pending⟩
      · exact absurd blocked (inv.readers noWriter i)
      · exact ⟨i, pending⟩
    · rw [inv.core.counted.wWait] at writers
      rcases exists_waits (by exact_mod_cast writers) with ⟨i, blocked | pending⟩
      · exact inv.writers noWriter noReader i blocked
      · exact ⟨i, pending⟩

variable [DecidableEq ι]

variable {rWait' wWait' : Int} {thread : RwlThread}

theorem Counted.update {rActive rWait wActive wWait : Int}
    {rActive' rWait' wActive' wWait' : Int} {threads : ι → RwlThread}
    (counted : Counted rActive rWait wActive wWait threads) {me : ι}
    (reads : rActive' + (threads me).reads = rActive + thread.reads)
    (readWaits : rWait' + waits false (threads me).pc = rWait + waits false thread.pc)
    (writes : wActive' + (threads me).writes = wActive + thread.writes)
    (writeWaits : wWait' + waits true (threads me).pc = wWait + waits true thread.pc) :
    Counted rActive' rWait' wActive' wWait' (Function.update threads me thread) where
  rActive := by
    have := sum_update RwlThread.reads threads me thread
    have := counted.rActive
    omega
  rWait := by
    have := sum_update (fun t => waits false t.pc) threads me thread
    have := counted.rWait
    omega
  wActive := by
    have := sum_update RwlThread.writes threads me thread
    have := counted.wActive
    omega
  wWait := by
    have := sum_update (fun t => waits true t.pc) threads me thread
    have := counted.wWait
    omega

variable {this : RwlockT ι} {me : ι}

theorem Core.set (core : Core this) {mutex' : Option ι} {rActive' wActive' : Int}
    (reads : rActive' + (this.threads me).reads = this.rActive + thread.reads)
    (readWaits : rWait' + waits false (this.threads me).pc = this.rWait + waits false thread.pc)
    (writes : wActive' + (this.threads me).writes = this.wActive + thread.writes)
    (writeWaits : wWait' + waits true (this.threads me).pc = this.wWait + waits true thread.pc)
    (alone : wActive' = 0 ∨ wActive' = 1 ∧ rActive' = 0)
    (matching : ∀ op, thread.pc = .entering op ∨ thread.pc = .inside op → Matching thread op) :
    Core ⟨mutex', rActive', rWait', wActive', wWait', Function.update this.threads me thread⟩ where
  counted := core.counted.update reads readWaits writes writeWaits
  alone := alone
  matching := by
    intro i op
    dsimp only
    rw [update_apply]
    split_ifs
    · exact matching op
    · exact core.matching i op

theorem Inv.setPc (inv : Inv this) {pc : RwlPc} {mutex' : Option ι}
    (same : ∀ writer, waits writer (this.threads me).pc = waits writer pc)
    (goes : ∀ writer, pc ≠ .blocked writer) (pending : Pending (this.threads me).pc → Pending pc)
    (matching : ∀ op, pc = .entering op ∨ pc = .inside op → Matching (this.threads me) op) :
    Inv ({ this with mutex := mutex' }.setPc me pc) where
  core := by
    apply inv.core.set
    · rfl
    · rw [same]
    · rfl
    · rw [same]
    · exact inv.core.alone
    · intro op here
      have holds := matching op here
      cases op <;> exact holds
  readers := by
    intro free i
    simp only [RwlockT.setPc, RwlockT.set, update_apply]
    split_ifs
    · exact goes false
    · exact inv.readers free i
  writers := by
    intro free noReader i
    simp only [RwlockT.setPc, RwlockT.set, update_apply]
    split_ifs
    · intro blocked
      exact absurd blocked (goes true)
    · intro blocked
      rcases inv.writers free noReader i blocked with ⟨j, woken⟩
      refine ⟨j, ?_⟩
      split_ifs with mine
      · rw [mine] at woken
        exact pending woken
      · exact woken

omit [DecidableEq ι] in
theorem Core.inv_of_taken (core : Core this)
    (taken : this.wActive ≠ 0 ∨ this.rActive ≠ 0 ∧
      ∀ i, (this.threads i).pc ≠ .blocked false) : Inv this where
  core := core
  readers := by
    intro free
    rcases taken with writer | readers
    · exact absurd free writer
    · exact readers.2
  writers := by
    intro free noReader
    rcases taken with writer | readers
    · exact absurd free writer
    · exact absurd noReader readers.1

omit [DecidableEq ι] in
theorem Core.rActive_nonneg (core : Core this) : 0 ≤ this.rActive := by
  rw [core.counted.rActive]
  exact Int.natCast_nonneg _

omit [Fintype ι] in
theorem not_blocked_update {threads : ι → RwlThread} {thread : RwlThread}
    {pc : RwlPc} (others : ∀ i, (threads i).pc ≠ pc) (mine : thread.pc ≠ pc) (i : ι) :
    (Function.update threads me thread i).pc ≠ pc := by
  rw [update_apply]
  split_ifs
  · exact mine
  · exact others i

theorem Inv.readActive (inv : Inv this) (free : this.wActive = 0)
    (left : rWait' + waits false (this.threads me).pc = this.rWait)
    (reader : waits true (this.threads me).pc = 0) :
    Inv ({ this with rWait := rWait' }.readActive me) := by
  have nonneg := inv.core.rActive_nonneg
  apply Core.inv_of_taken
  · apply inv.core.set
    · push_cast
      omega
    · exact left.trans (Int.add_zero _).symm
    · rfl
    · rw [reader]
      rfl
    · exact .inl free
    · nofun
  · right
    refine ⟨?_, not_blocked_update (inv.readers free) nofun⟩
    show this.rActive + 1 ≠ 0
    omega

theorem Inv.writeActive (inv : Inv this) (free : this.wActive = 0) (noReader : this.rActive = 0)
    (left : wWait' + waits true (this.threads me).pc = this.wWait)
    (writer : waits false (this.threads me).pc = 0) :
    Inv ({ this with wWait := wWait' }.writeActive me) := by
  apply Core.inv_of_taken
  · apply inv.core.set
    · rfl
    · rw [writer]
      rfl
    · rw [free]
      push_cast
      omega
    · exact left.trans (Int.add_zero _).symm
    · exact .inr ⟨rfl, noReader⟩
    · nofun
  · left
    exact one_ne_zero

theorem Inv.blocked (inv : Inv this) (taken : this.wActive ≠ 0 ∨ writer = true ∧ 0 < this.rActive)
    (readWaits : rWait' + waits false (this.threads me).pc =
      this.rWait + waits false (.blocked writer))
    (writeWaits : wWait' + waits true (this.threads me).pc =
      this.wWait + waits true (.blocked writer)) :
    Inv ({ this with rWait := rWait', wWait := wWait' }.setPc me (.blocked writer)) := by
  apply Core.inv_of_taken
  · apply inv.core.set
    · rfl
    · exact readWaits
    · rfl
    · exact writeWaits
    · exact inv.core.alone
    · nofun
  · rcases taken with active | ⟨rfl, readers⟩
    · exact .inl active
    · rcases inv.core.alone with free | ⟨_, noReader⟩
      · right
        refine ⟨?_, not_blocked_update (inv.readers free) nofun⟩
        show this.rActive ≠ 0
        omega
      · omega

theorem waits_woken (writer : Bool) (thread : RwlThread) :
    waits writer thread.woken.pc = waits writer thread.pc := by
  rcases thread with ⟨pc, reads, writes⟩
  cases pc <;> rfl

theorem matching_woken (matching : ∀ op, thread.pc = .entering op ∨ thread.pc = .inside op →
      Matching thread op) (op : RwlOp)
    (here : thread.woken.pc = .entering op ∨
      thread.woken.pc = .inside op) : Matching thread.woken op := by
  have same : thread.pc = .entering op ∨ thread.pc = .inside op := by
    rcases thread with ⟨pc, reads, writes⟩
    cases pc with
    | blocked writer => rcases here with same | same <;> cases same
    | idle | entering _ | inside _ | woken _ | resumed _ => exact here
  have holds := matching op same
  cases op <;> exact holds

theorem pending_woken (waits : thread.pc = .blocked writer ∨ Pending thread.pc) :
    Pending thread.woken.pc := by
  rcases thread with ⟨pc, reads, writes⟩
  rcases waits with blocked | pending
  · cases blocked
    trivial
  · cases pc with
    | woken _ | resumed _ => trivial
    | idle | entering _ | inside _ | blocked _ => exact pending.elim

variable {after : RwlockT ι}

theorem Core.signalled (core : Core this) (readers : ∀ i, (this.threads i).pc ≠ .blocked false)
    {signalled : Option ι} (signals : this.condSignal true signalled = some after) :
    Inv after := by
  cases signalled with
  | none =>
    simp only [condSignal] at signals
    split_ifs at signals with none'
    cases signals
    exact ⟨core, fun _ => readers, fun _ _ i blocked =>
      absurd blocked (none' i)⟩
  | some i =>
    simp only [condSignal] at signals
    split_ifs at signals with blocked
    cases signals
    have woken : Pending (this.threads i).woken.pc := pending_woken (.inl blocked)
    constructor
    · apply core.set
      · rfl
      · rw [waits_woken]
      · rfl
      · rw [waits_woken]
      · exact core.alone
      · exact matching_woken (core.matching i)
    · intro _
      apply not_blocked_update readers
      intro same
      rw [same] at woken
      exact woken
    · intro _ _ _ _
      refine ⟨i, ?_⟩
      simp only [RwlockT.set, update_self]
      exact woken

theorem woken_of_blocked {other : Bool}
    (blocked : (if thread.pc = .blocked writer then thread.woken
      else thread).pc = .blocked other) : other ≠ writer := by
  split_ifs at blocked with same
  · have woken := pending_woken (.inl same)
    rw [blocked] at woken
    exact woken.elim
  · rintro rfl
    exact same blocked

omit [DecidableEq ι] in
theorem Core.broadcast (core : Core this)
    (someWait : 0 < this.rWait) : Inv (this.condBroadcast false) where
  core := by
    have kept : ∀ (held : RwlThread → Nat), (∀ thread, held thread.woken = held thread) →
        ∑ i, held (if (this.threads i).pc = .blocked false then
          (this.threads i).woken else this.threads i) =
        ∑ i, held (this.threads i) := by
      intro held same
      apply Finset.sum_congr rfl
      intro i _
      split_ifs
      · exact same _
      · rfl
    constructor
    · constructor
      · exact core.counted.rActive.trans
          (congrArg Nat.cast (kept RwlThread.reads fun _ => rfl).symm)
      · exact core.counted.rWait.trans (congrArg Nat.cast
          (kept (fun t => waits false t.pc) (waits_woken false)).symm)
      · exact core.counted.wActive.trans
          (congrArg Nat.cast (kept RwlThread.writes fun _ => rfl).symm)
      · exact core.counted.wWait.trans (congrArg Nat.cast
          (kept (fun t => waits true t.pc) (waits_woken true)).symm)
    · exact core.alone
    · intro i op
      simp only [condBroadcast]
      split_ifs
      · exact matching_woken (core.matching i) op
      · exact core.matching i op
  readers := by
    intro _ i blocked
    exact woken_of_blocked blocked rfl
  writers := by
    intro _ _ _ _
    rw [core.counted.rWait] at someWait
    rcases exists_waits (by exact_mod_cast someWait) with ⟨i, waiting⟩
    refine ⟨i, ?_⟩
    simp only [condBroadcast]
    split_ifs with blocked
    · exact pending_woken (.inl blocked)
    · exact waiting.resolve_left blocked

omit [DecidableEq ι] in
theorem not_blocked_of_count {writer : Bool} {count : Int} {threads : ι → RwlThread}
    (counts : count = ∑ i, waits writer (threads i).pc)
    (none' : ¬ 0 < count) (i : ι) : (threads i).pc ≠ .blocked writer := by
  intro blocked
  apply none'
  rw [counts]
  apply Int.natCast_pos.mpr
  apply Finset.sum_pos_iff.mpr
  refine ⟨i, Finset.mem_univ i, ?_⟩
  rw [blocked]
  simp [waits]

section

variable (inv : Inv this)
include inv

theorem Inv.rwlReadunlock (pc : (this.threads me).pc = .inside .readUnlock)
    {signalled : Option ι} (unlocks : this.rwlReadunlock me signalled = some after) :
    Inv after := by
  have holds : 0 < (this.threads me).reads := inv.core.matching me .readUnlock (.inr pc)
  have mine := single_le_sum RwlThread.reads this.threads me
  have active := inv.core.counted.rActive
  have free : this.wActive = 0 := by
    rcases inv.core.alone with free | ⟨_, noReader⟩
    · exact free
    · omega
  have readers : ∀ i, (Function.update this.threads me
      ⟨.idle, (this.threads me).reads - 1, (this.threads me).writes⟩ i).pc ≠ .blocked false :=
    not_blocked_update (inv.readers free) nofun
  have core : Core ({ this with rActive := this.rActive - 1 }.set me
      ⟨.idle, (this.threads me).reads - 1, (this.threads me).writes⟩) := by
    apply inv.core.set
    · push_cast [holds]
      omega
    · rw [pc]
      rfl
    · rfl
    · rw [pc]
      rfl
    · exact .inl free
    · nofun
  simp only [RwlockT.rwlReadunlock] at unlocks
  split_ifs at unlocks with signal
  · exact core.signalled readers unlocks
  · cases unlocks
    refine ⟨core, fun _ => readers, ?_⟩
    intro _ noReader i blocked
    have someWait : ¬ 0 < this.wWait := fun some_ => signal ⟨noReader, some_⟩
    exact absurd blocked (not_blocked_of_count core.counted.wWait someWait i)

theorem Inv.rwlWriteunlock (pc : (this.threads me).pc = .inside .writeUnlock)
    {signalled : Option ι} (unlocks : this.rwlWriteunlock me signalled = some after) :
    Inv after := by
  have holds : 0 < (this.threads me).writes := inv.core.matching me .writeUnlock (.inr pc)
  have mine := single_le_sum RwlThread.writes this.threads me
  have active := inv.core.counted.wActive
  have alone : this.wActive = 1 ∧ this.rActive = 0 := by
    rcases inv.core.alone with free | alone
    · omega
    · exact alone
  have core : Core ({ this with wActive := 0 }.set me
      ⟨.idle, (this.threads me).reads, (this.threads me).writes - 1⟩) := by
    apply inv.core.set
    · rfl
    · rw [pc]
      rfl
    · push_cast [holds]
      omega
    · rw [pc]
      rfl
    · exact .inl rfl
    · nofun
  simp only [RwlockT.rwlWriteunlock] at unlocks
  split_ifs at unlocks with readersWait writersWait
  · cases unlocks
    exact core.broadcast readersWait
  · exact core.signalled (not_blocked_of_count core.counted.rWait readersWait) unlocks
  · cases unlocks
    refine ⟨core, fun _ => ?_, fun _ _ i blocked => ?_⟩
    · exact not_blocked_of_count core.counted.rWait readersWait
    · exact absurd blocked (not_blocked_of_count core.counted.wWait writersWait i)

theorem Inv.perform {op : RwlOp} (pc : (this.threads me).pc = .inside op) {signalled : Option ι}
    (performs : this.perform me signalled op = some after) :
    Inv after := by
  have outside : ∀ writer, waits writer (this.threads me).pc = 0 := by
    intro writer
    rw [pc]
    rfl
  have nonneg := inv.core.rActive_nonneg
  have busy : Inv (this.setPc me .idle) := by
    apply inv.setPc
    · exact outside
    · nofun
    · rw [pc]
      exact False.elim
    · nofun
  cases op with
  | readLock =>
    cases performs
    rw [rwlReadlock]
    split_ifs with writer
    · apply inv.blocked (.inl writer)
      · rw [outside]
        simp [waits]
      · rw [outside]
        rfl
    · apply inv.readActive (not_not.mp writer)
      · rw [outside]
        exact Int.add_zero _
      · exact outside true
  | readTryLock =>
    cases performs
    rw [rwlReadtrylock]
    split_ifs with writer
    · exact busy
    · apply inv.readActive (not_not.mp writer)
      · rw [outside]
        exact Int.add_zero _
      · exact outside true
  | readUnlock => exact inv.rwlReadunlock pc performs
  | writeLock =>
    cases performs
    rw [rwlWritelock]
    split_ifs with taken
    · apply inv.blocked
      · exact taken.imp_right fun readers => ⟨rfl, readers⟩
      · rw [outside]
        rfl
      · rw [outside]
        simp [waits]
    · apply inv.writeActive
      · exact not_not.mp (not_or.mp taken).1
      · have := (not_or.mp taken).2
        omega
      · rw [outside]
        exact Int.add_zero _
      · exact outside false
  | writeTryLock =>
    cases performs
    rw [rwlWritetrylock]
    split_ifs with taken
    · exact busy
    · apply inv.writeActive
      · exact not_not.mp (not_or.mp taken).1
      · have := (not_or.mp taken).2
        omega
      · rw [outside]
        exact Int.add_zero _
      · exact outside false
  | writeUnlock => exact inv.rwlWriteunlock pc performs

theorem Inv.resume (pc : (this.threads me).pc = .resumed writer) : Inv (this.resume me writer) := by
  have nonneg := inv.core.rActive_nonneg
  cases writer with
  | true =>
    rw [RwlockT.resume, if_pos rfl]
    split_ifs with taken
    · apply inv.blocked
      · exact taken.imp_right fun readers => ⟨rfl, readers⟩
      · rw [pc]
        rfl
      · rw [pc]
        rfl
    · apply inv.writeActive
      · exact not_not.mp (not_or.mp taken).1
      · have := (not_or.mp taken).2
        omega
      · rw [pc]
        simp [waits]
      · rw [pc]
        rfl
  | false =>
    rw [RwlockT.resume, if_neg Bool.false_ne_true]
    split_ifs with active
    · apply inv.blocked (.inl active)
      · rw [pc]
        rfl
      · rw [pc]
        rfl
    · apply inv.readActive (not_not.mp active)
      · rw [pc]
        simp [waits]
      · rw [pc]
        rfl

omit [DecidableEq ι] in
theorem Inv.unlocked (mutex' : Option ι) : Inv { this with mutex := mutex' } :=
  ⟨⟨inv.core.counted, inv.core.alone, inv.core.matching⟩, inv.readers, inv.writers⟩

end

theorem step_inv (this : RwlockT ι) (move : RwlMove ι) (after : RwlockT ι) (inv : Inv this)
    (steps : this.step move = some after) : Inv after := by
  cases move with
  | call me op =>
    simp only [step] at steps
    split_ifs at steps with calls
    cases steps
    apply inv.setPc
    · intro writer
      rw [calls.1]
      rfl
    · nofun
    · rw [calls.1]
      exact False.elim
    · rintro other (same | same) <;> cases same
      exact calls.2
  | go me signalled =>
    simp only [step] at steps
    split at steps
    · cases steps
    · rename_i op pc
      simp only [acquire] at steps
      split_ifs at steps
      cases steps
      apply inv.setPc
      · intro writer
        rw [pc]
        rfl
      · nofun
      · rw [pc]
        exact False.elim
      · rintro other (same | same) <;> cases same
        exact inv.core.matching me op (.inl pc)
    · rename_i op pc
      rcases Option.bind_eq_some_iff.mp steps with ⟨performed, performs, rest⟩
      cases rest
      exact (inv.perform pc performs).unlocked none
    · cases steps
    · rename_i writer pc
      simp only [acquire] at steps
      split_ifs at steps
      cases steps
      apply inv.setPc
      · intro other
        rw [pc]
        rfl
      · nofun
      · exact fun _ => trivial
      · nofun
    · rename_i writer pc
      cases steps
      exact (inv.resume pc).unlocked none
  | spurious me =>
    simp only [step] at steps
    split at steps
    · rename_i writer pc
      cases steps
      apply inv.setPc
      · intro other
        rw [pc]
        rfl
      · nofun
      · exact fun _ => trivial
      · nofun
    · cases steps

omit [DecidableEq ι] in
theorem init_inv : Inv (init : RwlockT ι) where
  core := by
    constructor
    · constructor <;> simp [init, waits]
    · exact .inl rfl
    · rintro i op (same | same) <;> cases same
  readers := nofun
  writers := nofun

/-- Whatever the threads do, the counts are right, a writer is alone, and no
wake-up is lost. -/
theorem init_run_safe {moves : List (RwlMove ι)} {last : RwlockT ι}
    (runs : run step init moves = some last) : Safe last :=
  (run_invariant_always step_inv init_inv runs).safe

/-! ## Threads that go on -/

def hasMutex : RwlPc → Bool
  | .inside _ | .resumed _ => true
  | _ => false

def MutexInv (this : RwlockT ι) : Prop := Owns this.mutex fun i => hasMutex (this.threads i).pc

theorem hasMutex_woken (thread : RwlThread) : hasMutex thread.woken.pc = hasMutex thread.pc := by
  rcases thread with ⟨pc, reads, writes⟩
  cases pc <;> rfl

omit [Fintype ι] in
theorem resume_hasMutex (writer : Bool) (c : ι) :
    hasMutex ((this.resume me writer).threads c).pc =
      (decide (c ≠ me) && hasMutex (this.threads c).pc) := by
  simp only [resume, readActive, writeActive, setPc, set]
  by_cases isMe : c = me
  · split_ifs <;> simp [isMe, hasMutex]
  · split_ifs <;> simp [isMe]

omit [Fintype ι] in
theorem MutexInv.released (inv : MutexInv this) (held : hasMutex (this.threads me).pc = true)
    (others : ∀ c, hasMutex (after.threads c).pc =
      (decide (c ≠ me) && hasMutex (this.threads c).pc)) :
    MutexInv { after with mutex := none } := by
  have release : OwnStep me this.mutex (hasMutex (this.threads me).pc) none
      (hasMutex (after.threads me).pc) := by
    rw [others, held]
    simpa using OwnStep.release this.mutex
  exact inv.step (fun c other => by simp [others, other]) release

omit [Fintype ι] in
theorem MutexInv.setPc (inv : MutexInv this) {mutex' : Option ι} {pc : RwlPc}
    (steps : OwnStep me this.mutex (hasMutex (this.threads me).pc) mutex' (hasMutex pc)) :
    MutexInv ({ this with mutex := mutex' }.setPc me pc) := by
  have others : ∀ c, c ≠ me →
      hasMutex ((this.setPc me pc).threads c).pc = hasMutex (this.threads c).pc := by
    intro c other
    simp [RwlockT.setPc, set, other]
  refine Owns.step inv others ?_
  simpa [RwlockT.setPc, set] using steps

theorem hasMutex_condSignal {writer : Bool} {signalled : Option ι}
    (signals : this.condSignal writer signalled = some after) (c : ι) :
    hasMutex (after.threads c).pc = hasMutex (this.threads c).pc := by
  cases signalled with
  | none =>
    simp only [condSignal] at signals
    split_ifs at signals
    cases signals
    rfl
  | some i =>
    simp only [condSignal] at signals
    split_ifs at signals
    cases signals
    by_cases same : c = i
    · simp [set, same, hasMutex_woken]
    · simp [set, same]

/-- What a thread does inside leaves the mutex to be released. -/
theorem perform_hasMutex {op : RwlOp} {signalled : Option ι}
    (performs : this.perform me signalled op = some after) (c : ι) :
    hasMutex (after.threads c).pc = (decide (c ≠ me) && hasMutex (this.threads c).pc) := by
  have mine : ∀ (base : RwlockT ι) (thread : RwlThread), base.threads = this.threads →
      hasMutex thread.pc = false →
      hasMutex ((base.set me thread).threads c).pc =
        (decide (c ≠ me) && hasMutex (this.threads c).pc) := by
    intro base thread same out
    rw [set, same]
    by_cases isMe : c = me
    · simp [isMe, out]
    · simp [isMe]
  cases op <;> simp only [perform, rwlReadlock, rwlReadtrylock, rwlReadunlock, rwlWritelock,
    rwlWritetrylock, rwlWriteunlock, readActive, writeActive, setPc] at performs
  all_goals try split_ifs at performs
  all_goals first
    | cases performs
      first
        | exact mine _ _ rfl rfl
        | simp only [condBroadcast]
          split_ifs
          · rw [hasMutex_woken]
            exact mine _ _ rfl rfl
          · exact mine _ _ rfl rfl
    | rw [hasMutex_condSignal performs]
      exact mine _ _ rfl rfl

theorem step_mutexInv (this : RwlockT ι) (move : RwlMove ι) (after : RwlockT ι)
    (inv : MutexInv this) (steps : this.step move = some after) : MutexInv after := by
  cases move with
  | call me op =>
    simp only [step] at steps
    split_ifs at steps with calls
    cases steps
    apply inv.setPc
    rw [calls.1]
    exact .keep _ _
  | go me signalled =>
    simp only [step] at steps
    split at steps
    · cases steps
    · rename_i op pc
      simp only [acquire] at steps
      split_ifs at steps with free
      cases steps
      apply inv.setPc
      rw [pc, free]
      exact .take
    · rename_i op pc
      rcases Option.bind_eq_some_iff.mp steps with ⟨performed, performs, rest⟩
      cases rest
      exact inv.released (by rw [pc]; rfl) (perform_hasMutex performs)
    · cases steps
    · rename_i writer pc
      simp only [acquire] at steps
      split_ifs at steps with free
      cases steps
      apply inv.setPc
      rw [pc, free]
      exact .take
    · rename_i writer pc
      cases steps
      exact inv.released (by rw [pc]; rfl) (resume_hasMutex writer)
  | spurious me =>
    simp only [step] at steps
    split at steps
    · rename_i writer pc
      cases steps
      apply inv.setPc
      rw [pc]
      exact .keep _ _
    · cases steps

theorem exists_condSignal (this : RwlockT ι) (writer : Bool) :
    ∃ signalled, (this.condSignal writer signalled).isSome := by
  by_cases some_ : ∃ i, (this.threads i).pc = .blocked writer
  · rcases some_ with ⟨i, blocked⟩
    exact ⟨some i, by simp [condSignal, blocked]⟩
  · exact ⟨none, by simpa [condSignal] using some_⟩

theorem exists_perform (this : RwlockT ι) (me : ι) (op : RwlOp) :
    ∃ signalled, (this.perform me signalled op).isSome := by
  cases op with
  | readUnlock =>
    simp only [perform, rwlReadunlock]
    split_ifs
    · exact exists_condSignal _ _
    · exact ⟨none, rfl⟩
  | writeUnlock =>
    simp only [perform, rwlWriteunlock]
    split_ifs
    · exact ⟨none, rfl⟩
    · exact exists_condSignal _ _
    · exact ⟨none, rfl⟩
  | _ => exact ⟨none, rfl⟩

theorem go_of_hasMutex {this : RwlockT ι} {me : ι}
    (held : hasMutex (this.threads me).pc = true) :
    ∃ signalled, (this.step (.go me signalled)).isSome := by
  cases pc : (this.threads me).pc with
  | inside op =>
    rcases exists_perform this me op with ⟨signalled, performs⟩
    rcases Option.isSome_iff_exists.mp performs with ⟨performed, same⟩
    exact ⟨signalled, by simp [step, pc, same]⟩
  | resumed writer => exact ⟨none, by simp [step, pc]⟩
  | _ =>
    rw [pc] at held
    cases held

theorem go_of_wants {this : RwlockT ι} {me : ι} (free : this.mutex = none)
    (wants : (∃ op, (this.threads me).pc = .entering op) ∨
      ∃ writer, (this.threads me).pc = .woken writer) :
    ∃ signalled, (this.step (.go me signalled)).isSome := by
  rcases wants with ⟨op, pc⟩ | ⟨writer, pc⟩
  · exact ⟨none, by simp [step, pc, acquire, free]⟩
  · exact ⟨none, by simp [step, pc, acquire, free]⟩

/-- A thread can always go on, unless each that is in a function waits for a
lock that is held. -/
theorem init_run_goesOn {moves : List (RwlMove ι)} {last : RwlockT ι}
    (runs : run step init moves = some last) :
    (∃ me signalled, (last.step (.go me signalled)).isSome) ∨
      ∀ me, (last.threads me).pc = .idle ∨
        (∃ writer, (last.threads me).pc = .blocked writer) ∧
          ∃ holder, 0 < (last.threads holder).reads ∨ 0 < (last.threads holder).writes := by
  have inv := run_invariant_always step_inv init_inv runs
  have free : MutexInv (init : RwlockT ι) := Owns.free fun _ => rfl
  have owns := run_invariant_always step_mutexInv free runs
  rcases owns.goesOn (fun _ => go_of_hasMutex) (fun free _ => go_of_wants free) with
    goes | quiet
  · exact .inl goes
  · right
    -- nobody is on the way to the mutex, so that no wake-up is pending
    have noneWoken : ∀ me, ¬ Pending (last.threads me).pc := by
      intro me pending
      have free := (quiet me).1
      cases pc : (last.threads me).pc with
      | woken writer => exact (quiet me).2 (.inr ⟨writer, pc⟩)
      | resumed writer => simp [pc, hasMutex] at free
      | _ =>
        rw [pc] at pending
        exact pending
    intro me
    cases pc : (last.threads me).pc with
    | idle => exact .inl rfl
    | entering op => exact absurd (.inl ⟨op, pc⟩) (quiet me).2
    | woken writer => exact absurd (.inr ⟨writer, pc⟩) (quiet me).2
    | inside op | resumed writer => exact absurd (quiet me).1 (by simp [pc, hasMutex])
    | blocked writer =>
      refine .inr ⟨⟨writer, rfl⟩, ?_⟩
      by_contra nobody
      simp only [not_exists, not_or, Nat.not_lt, Nat.le_zero] at nobody
      have counted := inv.core.counted
      have noReader : last.rActive = 0 := by simp [counted.rActive, nobody]
      have noWriter : last.wActive = 0 := by simp [counted.wActive, nobody]
      cases writer with
      | false => exact inv.readers noWriter me pc
      | true =>
        rcases inv.writers noWriter noReader me pc with ⟨j, pending⟩
        exact noneWoken j pending

local instance : NeZero 2 := ⟨by decide⟩

private def oneWaits : List (RwlMove (Fin 2)) :=
  [.call 0 .readLock, .go 0 none, .go 0 none, .call 1 .writeLock,
    .go 1 none, .go 1 none, .call 0 .readUnlock, .go 0 none, .go 0 (some 1)]

theorem init_run_safe_oneWaits : ∃ last, run step init oneWaits = some last ∧ Safe last := by
  have runs : run step init oneWaits = some _ := rfl
  exact ⟨_, runs, init_run_safe runs⟩

theorem init_run_goesOn_oneWaits : ∃ last, run step init (oneWaits.take 6) = some last ∧
    ((∃ me signalled, (last.step (.go me signalled)).isSome) ∨
      ∃ holder, 0 < (last.threads holder).reads ∨ 0 < (last.threads holder).writes) := by
  obtain ⟨last, runs, blocked⟩ : ∃ last, run step init (oneWaits.take 6) = some last ∧
      (last.threads 1).pc = .blocked true := ⟨_, rfl, rfl⟩
  refine ⟨last, runs, (init_run_goesOn runs).imp_right fun all => ?_⟩
  rcases all 1 with idle | ⟨-, held⟩
  · rw [blocked] at idle
    cases idle
  · exact held

end RwlockT

end Coast
