import Coast.AppLog.AppLogChannel
import Mathlib.Data.List.Basic

/-!
# The messages of a log channel

A message for which `LogAll` returned true is in a stream or in the buffer, as
long as `LogAll` finds the stream when it flushes, what is flushed is taken,
and it does not return true without having a stream to log to.
-/

namespace Coast.AppLogChannel

open Function Runs List Option

variable {ι : Type}

def written (this : AppLogChannel ι) : List LogItem := this.streams.flatMap LogStream.items

/-- No stream was misused, and the messages for which `LogAll` returned true
are written or buffered, once and in their order. -/
structure Sound (this : AppLogChannel ι) : Prop where
  used : this.misused = false
  none_ : this.unlogged = []
  items : (this.written ++ this.fBuffer).filter LogItem.counts = this.logged.filter LogItem.counts

/-- The stream takes what is buffered, or nothing in the buffer counts. -/
def Takes (this : AppLogChannel ι) (os : LogStream) (accepted : Bool) : Prop :=
  (os.good && accepted) = true ∨ ∀ item ∈ this.fBuffer, item.counts = false

/-- Without a good stream `LogAll` does not return true, a flush of `LogAll`
finds a stream, and a stream takes what is flushed. -/
def Meets (this : AppLogChannel ι) : LogAction ι → Prop
  | .logAll _ iLevel logMsg =>
    0 < iLevel &&& this.info.fSeverity → logMsg ≠ [] →
      if this.stream.any LogStream.good then
        this.info.fNoLogItemsWrite = false
      else this.info.fSuppressEmptyLines = false
  | .append _ accepted =>
    (this.fItemsInBuffer + 1) % this.info.fItemsToBuffer = 0 →
      ∃ os, this.stream = some os ∧ this.Takes os accepted
  | .flushItems _ accepted | .reopen _ accepted _ _ =>
    ∀ os, this.stream = some os → this.Takes os accepted
  | .rotate _ _ => True

/-- A channel that is sound has its stream last, and counts what is buffered. -/
structure Inv (this : AppLogChannel ι) : Prop extends Sound this where
  alive : ∀ i, this.fLogStream = some i → ∃ front os,
    this.streams = front ++ [os] ∧ i = front.length ∧ os.deleted = false
  count : this.fItemsInBuffer = this.fBuffer.length

variable {this : AppLogChannel ι}

theorem Inv.stream_cases (inv : Inv this) :
    this.fLogStream = none ∧ this.stream = none ∨
    ∃ front os, this.fLogStream = some front.length ∧
      this.streams = front ++ [os] ∧ this.stream = some os ∧
      os.deleted = false := by
  cases number : this.fLogStream with
  | none => exact .inl ⟨rfl, by rw [stream, number]; rfl⟩
  | some i =>
    rcases inv.alive i number with ⟨front, os, streams, rfl, alive⟩
    refine .inr ⟨front, os, rfl, streams, ?_, alive⟩
    simp [stream, number, streams, alive]

variable {front : List LogStream} {os : LogStream}

theorem setStream_eq (number : this.fLogStream = some front.length)
    (streams : this.streams = front ++ [os]) (other : LogStream) :
    this.setStream other = { this with streams := front ++ [other] } := by
  rw [setStream, number, streams]
  simp

theorem logged_doFlushItems (this : AppLogChannel ι) (accepted : Bool) :
    (this.doFlushItems accepted).logged = this.logged := by
  rw [doFlushItems]
  split
  · rfl
  · split
    · rfl
    · next os _ =>
        simp only [setStream]
        split <;> rfl

theorem doFlushItems_eq (number : this.fLogStream = some front.length)
    (streams : this.streams = front ++ [os]) (stream : this.stream = some os)
    (some_ : this.fItemsInBuffer ≠ 0) (accepted : Bool) :
    this.doFlushItems accepted =
      { this with
        streams := front ++ [os.write this.fBuffer accepted]
        fBuffer := []
        fItemsInBuffer := 0 } := by
  have set_ := setStream_eq number streams (os.write this.fBuffer accepted)
  simp only [doFlushItems, stream, set_]
  simp [number, some_]

theorem doFlushItems_of_none (number : this.fLogStream = none)
    (accepted : Bool) : this.doFlushItems accepted = this := by
  rw [doFlushItems, number]
  rfl

variable {accepted : Bool}

theorem Inv.doFlushItems (inv : Inv this)
    (takes : ∀ os, this.stream = some os → this.Takes os accepted) :
    Inv (this.doFlushItems accepted) := by
  rcases inv.stream_cases with ⟨number, _⟩ | ⟨front, os, number, streams, stream, alive⟩
  · rw [doFlushItems_of_none number]
    exact inv
  · by_cases none_ : this.fItemsInBuffer = 0
    · rw [AppLogChannel.doFlushItems, if_pos (by simp [none_])]
      exact inv
    · rw [doFlushItems_eq number streams stream none_]
      have items := inv.items
      rw [written, streams, flatMap_append, flatMap_singleton] at items
      refine ⟨⟨inv.used, inv.none_, ?_⟩, ?_, rfl⟩
      · rw [← items]
        simp only [written, LogStream.write, flatMap_append, flatMap_singleton, append_nil]
        split
        · rw [append_assoc]
        · next refused =>
            rcases takes os stream with taken | nothing
            · exact absurd taken refused
            · have empty : this.fBuffer.filter LogItem.counts = [] := by
                simpa using nothing
              rw [filter_append (_ ++ _), empty, append_nil]
      · intro i at_
        rw [number] at at_
        cases at_
        refine ⟨front, _, rfl, rfl, ?_⟩
        rw [LogStream.write]
        split <;> exact alive

theorem doFlushItems_lost (number : this.fLogStream = some front.length)
    (streams : this.streams = front ++ [os]) (stream : this.stream = some os)
    (some_ : this.fItemsInBuffer ≠ 0) (refused : ¬ (os.good && accepted) = true) :
    (this.doFlushItems accepted).written = this.written ∧
    (this.doFlushItems accepted).fBuffer = [] := by
  rw [doFlushItems_eq number streams stream some_]
  refine ⟨?_, rfl⟩
  simp only [written, streams, LogStream.write, if_neg refused, flatMap_append, flatMap_singleton]

theorem Sound.not_lost {after : AppLogChannel ι} (sound : Sound this)
    (soundAfter : Sound after) (written : after.written = this.written)
    (fBuffer : after.fBuffer = [])
    (logged : after.logged.filter LogItem.counts = this.logged.filter LogItem.counts) :
    ∀ item ∈ this.fBuffer, item.counts = false := by
  have items := soundAfter.items
  rw [written, fBuffer, append_nil, logged, ← sound.items,
    filter_append, self_eq_append_right] at items
  simpa using items

theorem create_inv (info : AppLogChannelInfo) (opened headerAccepted : Bool) :
    Inv (create info opened headerAccepted : AppLogChannel ι) := by
  cases opened with
  | false =>
    refine ⟨⟨rfl, rfl, rfl⟩, ?_, rfl⟩
    intro i at_
    cases at_
  | true =>
    refine ⟨⟨rfl, rfl, rfl⟩, ?_, rfl⟩
    intro i at_
    cases at_
    exact ⟨[], _, rfl, rfl, rfl⟩

theorem Inv.stream_none (inv : Inv this) (none_ : this.stream = none) : this.fLogStream = none := by
  rcases inv.stream_cases with ⟨number, _⟩ | ⟨front, os, _, _, stream, _⟩
  · exact number
  · rw [none_] at stream
    cases stream

theorem return_cases (this : AppLogChannel ι) (iLevel : Nat) (logMsg : Bytes) (result : Bool) :
    (this.return_ iLevel logMsg result = this ∧
      (0 < iLevel &&& this.info.fSeverity → logMsg ≠ [] → result = false)) ∨
    ((this.return_ iLevel logMsg result).unlogged ≠ [] ∧
      result = true ∧ 0 < iLevel &&& this.info.fSeverity ∧ logMsg ≠ []) := by
  rw [return_]
  split
  · next logs =>
      simp only [Bool.and_eq_true, decide_eq_true_eq, Bool.not_eq_true',
        isEmpty_eq_false_iff] at logs
      exact .inr ⟨by simp, logs.1.1, logs.1.2, logs.2⟩
  · next not =>
      refine .inl ⟨rfl, ?_⟩
      intro enabled some_
      simpa [enabled, some_] using not

theorem Inv.buffered (inv : Inv this) (item : LogItem) : Inv (this.buffer item) := by
  refine ⟨⟨inv.used, inv.none_, ?_⟩, inv.alive, ?_⟩
  · have items := inv.items
    simp only [written, buffer, filter_append] at items ⊢
    rw [← items, append_assoc]
  · simp [buffer, inv.count]

theorem doFlushItems_breaks (inv : Inv this)
    (misses : ¬ ∀ os, this.stream = some os → this.Takes os accepted) (after : AppLogChannel ι)
    (written : after.written = (this.doFlushItems accepted).written)
    (fBuffer : after.fBuffer = (this.doFlushItems accepted).fBuffer)
    (logged : after.logged = this.logged) : ¬ Sound after := by
  intro sound
  apply misses
  intro os stream
  rcases inv.stream_cases with ⟨_, none_⟩ | ⟨front, last, number, streams, stream', _⟩
  · rw [none_] at stream
    cases stream
  · rw [stream'] at stream
    cases stream
    by_cases refused : (os.good && accepted) = true
    · exact .inl refused
    · by_cases none_ : this.fItemsInBuffer = 0
      · have empty : this.fBuffer = [] := length_eq_zero_iff.mp (inv.count.symm.trans none_)
        refine .inr ?_
        rw [empty]
        exact fun item mem => nomatch mem
      · rcases doFlushItems_lost number streams stream' none_ refused with ⟨lost, empty⟩
        exact .inr (inv.toSound.not_lost sound (written.trans lost)
          (fBuffer.trans empty) (by rw [logged]))

theorem flushItems_eq (this : AppLogChannel ι) (accepted : Bool) :
    this.flushItems accepted = this.doFlushItems accepted := by
  rw [flushItems]
  split
  · rfl
  · next none_ =>
      rw [doFlushItems, if_pos]
      simp [Nat.eq_zero_of_not_pos none_]

theorem doFlushItems_stream (number : this.fLogStream = some front.length)
    (streams : this.streams = front ++ [os]) (stream : this.stream = some os)
    (alive : os.deleted = false) (accepted : Bool) :
    ∃ os', (this.doFlushItems accepted).fLogStream = some front.length ∧
      (this.doFlushItems accepted).streams = front ++ [os'] ∧
      (this.doFlushItems accepted).stream = some os' := by
  by_cases none_ : this.fItemsInBuffer = 0
  · rw [doFlushItems, if_pos (by simp [none_])]
    exact ⟨os, number, streams, stream⟩
  · rw [doFlushItems_eq number streams stream none_]
    refine ⟨os.write this.fBuffer accepted, number, rfl, ?_⟩
    have alive' : (os.write this.fBuffer accepted).deleted = false := by
      rw [LogStream.write]
      split <;> exact alive
    simp [AppLogChannel.stream, number, alive']

theorem closeStream_eq (inv : Inv this) (accepted : Bool) :
    ∃ streams, this.closeStream accepted =
      { this.doFlushItems accepted with
          fLogStream := none
          streams := streams } ∧
      streams.flatMap LogStream.items = (this.doFlushItems accepted).written := by
  rcases inv.stream_cases with ⟨number, _⟩ | ⟨front, os, number, streams, stream, alive⟩
  · refine ⟨this.streams, ?_, by rw [doFlushItems_of_none number]; rfl⟩
    rw [closeStream, if_neg (by simp [number]), doFlushItems_of_none number, ← number]
  · rcases doFlushItems_stream number streams stream alive accepted with
      ⟨os', number', streams', stream'⟩
    refine ⟨front ++ [os'.delete], ?_, ?_⟩
    · have set_ := setStream_eq number' streams' os'.delete
      simp only [closeStream, number, isSome_some, if_true, stream', set_]
    · rw [written, streams']
      simp [LogStream.delete]

theorem closeStream_inv (inv : Inv this)
    (takes : ∀ os, this.stream = some os → this.Takes os accepted) :
    Inv (this.closeStream accepted) := by
  have flushed := inv.doFlushItems takes
  rcases closeStream_eq inv accepted with ⟨streams, same, items⟩
  rw [same]
  refine ⟨⟨flushed.used, flushed.none_, ?_⟩, ?_, flushed.count⟩
  · have kept := flushed.items
    rw [← items] at kept
    exact kept
  · intro i at_
    cases at_

theorem openStream_inv (inv : Inv this) (opened headerAccepted : Bool) :
    Inv (this.openStream opened headerAccepted) := by
  cases opened with
  | false =>
    refine ⟨⟨inv.used, inv.none_, inv.items⟩, ?_, inv.count⟩
    intro i at_
    cases at_
  | true =>
    refine ⟨⟨inv.used, inv.none_, ?_⟩, ?_, inv.count⟩
    · have items := inv.items
      simpa [openStream, written, LogStream.open_] using items
    · intro i at_
      cases at_
      exact ⟨this.streams, _, rfl, rfl, rfl⟩

section

variable [DecidableEq ι] {after : AppLogChannel ι} {me : ι}

theorem Inv.moveTo (inv : Inv this) (me : ι) (pc : LogPc) : Inv (this.moveTo me pc) :=
  ⟨⟨inv.used, inv.none_, inv.items⟩, inv.alive, inv.count⟩

theorem Inv.logAll_eq (inv : Inv this) (me : ι) (iLevel : Nat) (logMsg : Bytes) :
    this.logAll me iLevel logMsg =
      if this.stream.any LogStream.good then
        if this.info.fNoLogItemsWrite then this.return_ iLevel logMsg true
        else if 0 < iLevel &&& this.info.fSeverity &&
            (!this.info.fSuppressEmptyLines || !logMsg.isEmpty) then
          this.moveTo me (.append logMsg)
        else this.return_ iLevel logMsg this.info.fSuppressEmptyLines
      else this.return_ iLevel logMsg this.info.fSuppressEmptyLines := by
  have used : ¬ (this.fLogStream.isSome && this.stream.isNone) = true := by
    rcases inv.stream_cases with ⟨number, stream⟩ | ⟨front, os, number, _, stream, _⟩
    · simp [number]
    · simp [stream]
  rw [logAll, if_neg used]

variable {logMsg : Bytes}

theorem logAll_inv {iLevel : Nat} (inv : Inv this) (meets : Meets this (.logAll me iLevel logMsg)) :
    Inv (this.logAll me iLevel logMsg) := by
  rw [inv.logAll_eq]
  split
  · next good =>
      split
      · next noWrite =>
          rcases return_cases this iLevel logMsg true with ⟨same, _⟩ | ⟨_, _, enabled, some_⟩
          · rw [same]
            exact inv
          · have writes := meets enabled some_
            rw [if_pos good, noWrite] at writes
            cases writes
      · split
        · exact inv.moveTo me _
        · next not =>
            rcases return_cases this iLevel logMsg
              this.info.fSuppressEmptyLines with
              ⟨same, _⟩ | ⟨_, _, enabled, some_⟩
            · rw [same]
              exact inv
            · exact absurd (by simp [enabled, some_]) not
  · next bad =>
      rcases return_cases this iLevel logMsg
        this.info.fSuppressEmptyLines with
        ⟨same, _⟩ | ⟨_, suppresses, enabled, some_⟩
      · rw [same]
        exact inv
      · have writes := meets enabled some_
        rw [if_neg bad, suppresses] at writes
        cases writes

theorem logAll_breaks {iLevel : Nat} (inv : Inv this)
    (misses : ¬ Meets this (.logAll me iLevel logMsg)) :
    ¬ Sound (this.logAll me iLevel logMsg) := by
  intro sound
  simp only [Meets, Classical.not_imp] at misses
  rcases misses with ⟨enabled, some_, wrong⟩
  have notTrue : ∀ result, result = true → ¬ Sound (this.return_ iLevel logMsg result) := by
    intro result isTrue sound
    rcases return_cases this iLevel logMsg result with ⟨_, isFalse⟩ | ⟨unlogged, _⟩
    · rw [isFalse enabled some_] at isTrue
      cases isTrue
    · exact unlogged sound.none_
  rw [inv.logAll_eq] at sound
  split at wrong
  · next good =>
      rw [if_pos good, if_pos (by simpa using wrong)] at sound
      exact notTrue true rfl sound
  · next bad =>
      rw [if_neg bad] at sound
      exact notTrue _ (by simpa using wrong) sound

variable {accepted : Bool}

theorem Takes.buffer {os : LogStream}
    (takes : this.Takes os accepted) (stream : this.stream = some os)
    (full : (this.fItemsInBuffer + 1) % this.info.fItemsToBuffer = 0) :
    ((this.moveTo me .idle).buffer ⟨logMsg, this.result accepted⟩).Takes os accepted := by
  by_cases taken : (os.good && accepted) = true
  · exact .inl taken
  · have notReturned : this.result accepted = false := by
      rw [result, stream]
      simpa [full] using taken
    rcases takes with taken' | nothing
    · exact absurd taken' taken
    · refine .inr ?_
      intro item mem
      rcases mem_append.mp mem with before | last
      · exact nothing item before
      · rw [mem_singleton.mp last, LogItem.counts, notReturned]
        rfl

theorem append_of_full (full : (this.fItemsInBuffer + 1) % this.info.fItemsToBuffer = 0) :
    this.append me logMsg accepted = if (((this.moveTo me .idle).buffer
          ⟨logMsg, this.result accepted⟩).doFlushItems
            accepted).stream.isNone then
        (((this.moveTo me .idle).buffer
          ⟨logMsg, this.result accepted⟩).doFlushItems accepted).misuse
      else ((this.moveTo me .idle).buffer
        ⟨logMsg, this.result accepted⟩).doFlushItems accepted :=
  if_neg (not_not.mpr full)

theorem append_inv (inv : Inv this) (meets : Meets this (.append me accepted)) :
    Inv (this.append me logMsg accepted) := by
  have inv' := (inv.moveTo me .idle).buffered ⟨logMsg, this.result accepted⟩
  simp only [append]
  split
  · exact inv'
  · next full =>
      have isFull := not_not.mp full
      rcases meets isFull with ⟨os, stream, takes⟩
      have flushed : Inv (((this.moveTo me .idle).buffer
          ⟨logMsg, this.result accepted⟩).doFlushItems accepted) := by
        apply inv'.doFlushItems
        intro os' stream'
        have same : some os' = some os := stream'.symm.trans stream
        cases same
        exact takes.buffer stream isFull
      rcases inv'.stream_cases with ⟨_, none_⟩ | ⟨front, last, number, streams, stream', _⟩
      · have same : some os = none := stream.symm.trans none_
        cases same
      · rw [if_neg]
        · exact flushed
        · intro none_
          have number' := flushed.stream_none (isNone_iff_eq_none.mp none_)
          rw [doFlushItems_eq number streams stream' (Nat.succ_ne_zero _)] at number'
          rw [number] at number'
          cases number'

theorem append_breaks (inv : Inv this) (misses : ¬ Meets this (.append me accepted)) :
    ¬ Sound (this.append me logMsg accepted) := by
  intro sound
  simp only [Meets, Classical.not_imp] at misses
  rcases misses with ⟨full, wrong⟩
  have inv' := (inv.moveTo me .idle).buffered ⟨logMsg, this.result accepted⟩
  rw [append_of_full full] at sound
  rcases inv'.stream_cases with ⟨number, none_⟩ | ⟨front, os, number, streams, stream, _⟩
  · -- `DoFlushItems` does nothing, and `*fLogStream` is NULL
    rw [doFlushItems_of_none number, none_] at sound
    cases sound.used
  · have wrong' : ¬ this.Takes os accepted := fun takes => wrong ⟨os, stream, takes⟩
    have refused : ¬ (os.good && accepted) = true := fun taken => wrong' (.inl taken)
    have notReturned : this.result accepted = false := by
      have here : this.stream = some os := stream
      rw [result, here]
      simpa [full] using refused
    rcases doFlushItems_lost number streams stream (Nat.succ_ne_zero _)
      refused with ⟨written, fBuffer⟩
    have sound' : Sound (((this.moveTo me .idle).buffer
        ⟨logMsg, this.result accepted⟩).doFlushItems accepted) := by
      split at sound
      · cases sound.used
      · exact sound
    have logged : (((this.moveTo me .idle).buffer
        ⟨logMsg, this.result accepted⟩).doFlushItems accepted).logged =
        this.logged ++ [⟨logMsg, this.result accepted⟩] :=
      logged_doFlushItems _ accepted
    have nothing := inv.toSound.not_lost sound' written fBuffer (by
      rw [logged, filter_append, notReturned]
      simp [LogItem.counts])
    exact wrong' (.inr nothing)

theorem reopen_breaks {opened headerAccepted : Bool} (inv : Inv this)
    (misses : ¬ ∀ os, this.stream = some os → this.Takes os accepted) :
    ¬ Sound (this.reopen me accepted opened headerAccepted) := by
  have inv' := inv.moveTo me .idle
  rcases closeStream_eq inv' accepted with ⟨streams, same, items⟩
  rw [reopen, same]
  have logged := logged_doFlushItems (this.moveTo me .idle) accepted
  apply doFlushItems_breaks inv' misses
  · rw [← items]
    cases opened with
    | false => rfl
    | true => simp [openStream, written, LogStream.open_]
  · cases opened <;> rfl
  · cases opened <;> exact logged

theorem step_inv (this : AppLogChannel ι) (action : LogAction ι)
    (after : AppLogChannel ι) (inv : Inv this) (meets : Meets this action)
    (steps : this.step action = some after) : Inv after := by
  cases action with
  | logAll me iLevel logMsg =>
    rcases ite_none_right_eq_some.mp steps with ⟨_, ⟨⟩⟩
    exact logAll_inv inv meets
  | append me accepted =>
    rw [step] at steps
    split at steps
    · cases steps
      exact append_inv inv meets
    · cases steps
  | flushItems me accepted =>
    rcases ite_none_right_eq_some.mp steps with ⟨_, ⟨⟩⟩
    rw [flushItems_eq]
    exact inv.doFlushItems meets
  | rotate me overrideDoNotRotateLogs =>
    rcases ite_none_right_eq_some.mp steps with ⟨_, rotates⟩
    split at rotates
    · cases rotates
      exact inv.moveTo me .reopen
    · cases rotates
      exact inv
  | reopen me accepted opened headerAccepted =>
    rcases ite_none_right_eq_some.mp steps with ⟨_, ⟨⟩⟩
    exact openStream_inv (closeStream_inv (inv.moveTo me .idle) meets) opened headerAccepted

theorem step_not_sound (this : AppLogChannel ι) (action : LogAction ι)
    (after : AppLogChannel ι) (inv : Inv this) (misses : ¬ Meets this action)
    (steps : this.step action = some after) : ¬ Sound after := by
  cases action with
  | logAll me iLevel logMsg =>
    rcases ite_none_right_eq_some.mp steps with ⟨_, ⟨⟩⟩
    exact logAll_breaks inv misses
  | append me accepted =>
    rw [step] at steps
    split at steps
    · cases steps
      exact append_breaks inv misses
    · cases steps
  | flushItems me accepted =>
    rcases ite_none_right_eq_some.mp steps with ⟨_, ⟨⟩⟩
    rw [flushItems_eq]
    exact doFlushItems_breaks inv misses _ rfl rfl (logged_doFlushItems this accepted)
  | rotate me overrideDoNotRotateLogs => exact absurd trivial misses
  | reopen me accepted opened headerAccepted =>
    rcases ite_none_right_eq_some.mp steps with ⟨_, ⟨⟩⟩
    exact reopen_breaks inv misses

/-- In a run from a new channel no stream is misused, and no message is lost
for which `LogAll` returned true, exactly if the steps meet the condition. -/
theorem create_always_delivers_iff (info : AppLogChannelInfo)
    (opened headerAccepted : Bool) {last : AppLogChannel ι} {actions : List (LogAction ι)}
    (runs : run step (create info opened headerAccepted) actions = some last) :
    Always step Sound (create info opened headerAccepted) actions ↔
      Along step Meets (create info opened headerAccepted) actions :=
  always_iff_along step_inv (fun _ inv => inv.toSound) step_not_sound
    (create_inv info opened headerAccepted) runs

end

private def unbuffered : AppLogChannelInfo := .doInitClone false false false 0 255 []

/-- The stream is there when the message is tested, and the rotation cannot
open another one. -/
private def rotatedAway : List (LogAction (Fin 2)) :=
  [.logAll 0 16 [109], .rotate 1 false, .reopen 1 true false true, .append 0 true]

theorem not_sound_rotatedAway :
    ∃ last, run step (create unbuffered true true) rotatedAway = some last ∧ ¬ Sound last :=
  ⟨_, rfl, fun sound => nomatch sound.used⟩

/-- The second message goes to the stream that the rotation opens. -/
private def rotatedBetween : List (LogAction (Fin 2)) :=
  [.logAll 0 16 [109], .append 0 true, .rotate 1 false, .reopen 1 true true true,
    .logAll 1 16 [110], .append 1 true]

private theorem rotatedBetween_meets :
    Along step Meets (create unbuffered true true) rotatedBetween := by
  refine .cons (fun _ _ => rfl) rfl (.cons (fun _ => ⟨_, rfl, .inl rfl⟩) rfl ?_)
  refine .cons trivial rfl (.cons ?_ rfl ?_)
  · rintro os ⟨⟩
    exact .inl rfl
  · exact .cons (fun _ _ => rfl) rfl (.cons (fun _ => ⟨_, rfl, .inl rfl⟩) rfl trivial)

theorem create_always_delivers_iff_rotated :
    (∃ last, run step (create unbuffered true true) rotatedBetween = some last ∧
      last.logged.length = 2 ∧
      Always step Sound (create unbuffered true true) rotatedBetween) ∧
    ∃ last, run step (create unbuffered true true) rotatedAway = some last ∧
      ¬ Along step Meets (create unbuffered true true) rotatedAway := by
  constructor
  · exact ⟨_, rfl, rfl,
      (create_always_delivers_iff unbuffered true true rfl).mpr rotatedBetween_meets⟩
  · rcases not_sound_rotatedAway with ⟨last, runs, not⟩
    refine ⟨last, runs, ?_⟩
    rw [← create_always_delivers_iff unbuffered true true runs]
    exact fun always => not (always.last runs)

/-- `LogAll` uses a stream that is NULL. -/
theorem not_create_always_delivers :
    ¬ ∀ (info : AppLogChannelInfo) (opened headerAccepted : Bool)
      (actions : List (LogAction (Fin 2))) (last : AppLogChannel (Fin 2)),
      run step (create info opened headerAccepted) actions = some last →
      Sound last := by
  intro sound
  rcases not_sound_rotatedAway with ⟨last, runs, not⟩
  exact not (sound unbuffered true true rotatedAway last runs)

end Coast.AppLogChannel
