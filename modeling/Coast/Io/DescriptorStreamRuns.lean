import Coast.Io.DescriptorStream

/-!
# What a descriptor gets

A flush that ends early leaves the put area as it was, although the descriptor
has a part of it.  Another flush would send that part again.
-/

namespace Coast

open Runs List

/-! ## What `DoWrite` sends -/

/-- What is asked of `DoWrite`: it sends no more than there is, all of it if it
succeeds, and nothing to a stream in a bad state. -/
structure WritesWell (len : Nat) (rdstate : IosState) (w : Written) : Prop where
  inside : w.bytesSent ≤ len
  all : ∀ result, w.result = some result → result ≠ Written.eof → w.bytesSent = len
  idle : rdstate.good = false → w.bytesSent = 0

theorem returns_all {len bytesSent : Nat} {rdstate : IosState} (inside : bytesSent ≤ len)
    (ends : len ≤ bytesSent ∨ rdstate.good = false) :
    ∀ result, (Written.returns bytesSent rdstate).result = some result →
      result ≠ Written.eof → bytesSent = len := by
  intro result isResult success
  rcases ends with long | bad
  · exact Nat.le_antisymm inside long
  · have failed : (if rdstate.good then (bytesSent : Int)
        else Written.eof) = result := Option.some.inj isResult
    rw [bad, if_neg Bool.false_ne_true] at failed
    exact absurd failed.symm success

namespace WriteLoop

theorem ends_cases {len : Nat} {this : WriteLoop} (ends : this.ends len = true) :
    len ≤ this.bytesSent ∨ this.rdstate.good = false := by
  unfold WriteLoop.ends at ends
  rw [Bool.and_eq_true, Bool.or_eq_true, decide_eq_true_eq, Bool.not_eq_true'] at ends
  rcases ends with ⟨-, all | bad⟩
  · exact .inl all
  · exact .inr (by simpa using bad)

theorem accept_inside {len bytes : Nat} {this : WriteLoop}
    (inside : this.bytesSent ≤ len) : (this.accept len bytes).bytesSent ≤ len := by
  show this.bytesSent + min (max 1 bytes) (len - this.bytesSent) ≤ len
  omega

theorem run_inside {turn : Nat → WriteLoop → DescriptorAnswer → WriteLoop} {len : Nat}
    (keeps : ∀ this answer, this.bytesSent ≤ len → (turn len this answer).bytesSent ≤ len)
    {this : WriteLoop} (inside : this.bytesSent ≤ len) (answers : List DescriptorAnswer) :
    (run turn len this answers).bytesSent ≤ len ∧
      ∀ result, (run turn len this answers).result = some result →
        result ≠ Written.eof → (run turn len this answers).bytesSent = len := by
  induction answers generalizing this with
  | nil =>
    rw [run]
    split
    · rename_i ends
      exact ⟨inside, returns_all inside (ends_cases ends)⟩
    · exact ⟨inside, nofun⟩
  | cons answer answers ih =>
    rw [run]
    split
    · rename_i ends
      exact ⟨inside, returns_all inside (ends_cases ends)⟩
    · exact ih (keeps this answer inside)

theorem run_idle (turn : Nat → WriteLoop → DescriptorAnswer → WriteLoop) (len : Nat)
    {rdstate : IosState} (bad : rdstate.good = false) (answers : List DescriptorAnswer) :
    (run turn len ⟨0, false, rdstate⟩ answers).bytesSent = 0 := by
  have ends : (WriteLoop.mk 0 false rdstate).ends len = true := by
    unfold WriteLoop.ends
    rw [bad, Bool.not_false, Bool.or_true]
    rfl
  cases answers with
  | nil =>
    rw [run, if_pos ends]
    rfl
  | cons answer answers =>
    rw [run, if_pos ends]
    rfl

end WriteLoop

theorem SocketStreamBuf.turn_inside {len : Nat} (this : WriteLoop)
    (answer : DescriptorAnswer) (inside : this.bytesSent ≤ len) :
    (SocketStreamBuf.turn len this answer).bytesSent ≤ len := by
  unfold SocketStreamBuf.turn
  split
  · split
    · exact inside
    · split <;> exact inside
  · split
    · split
      · exact inside
      · exact WriteLoop.accept_inside inside
      · exact inside
    · exact inside

theorem PipeStreamBuf.turn_inside {len : Nat} (this : WriteLoop)
    (answer : DescriptorAnswer) (inside : this.bytesSent ≤ len) :
    (PipeStreamBuf.turn len this answer).bytesSent ≤ len := by
  unfold PipeStreamBuf.turn
  split
  · split
    · exact inside
    · split
      · exact inside
      · exact WriteLoop.accept_inside inside
      · exact inside
  · split
    · split <;> exact inside
    · exact inside

theorem SocketStreamBuf.doWrite_writesWell (len : Nat) (rdstate : IosState)
    (answers : List DescriptorAnswer) :
    WritesWell len rdstate (SocketStreamBuf.doWrite len rdstate answers) := by
  have start : (WriteLoop.mk 0 false rdstate).bytesSent ≤ len := Nat.zero_le len
  have sends := WriteLoop.run_inside SocketStreamBuf.turn_inside start answers
  exact ⟨sends.1, sends.2, fun bad => WriteLoop.run_idle _ len bad answers⟩

theorem PipeStreamBuf.doWrite_writesWell (wfd : Bool) (len : Nat)
    (rdstate : IosState) (answers : List DescriptorAnswer) :
    WritesWell len rdstate (PipeStreamBuf.doWrite wfd len rdstate answers) := by
  cases wfd with
  | false =>
    exact ⟨Nat.zero_le len, returns_all (Nat.zero_le len) (.inr rfl), fun _ => rfl⟩
  | true =>
    have start : (WriteLoop.mk 0 false rdstate).bytesSent ≤ len := Nat.zero_le len
    have sends := WriteLoop.run_inside PipeStreamBuf.turn_inside start answers
    exact ⟨sends.1, sends.2, fun bad => WriteLoop.run_idle _ len bad answers⟩

namespace DescriptorStreamBuf

variable {kind : DescriptorKind} {this : DescriptorStreamBuf}

theorem doWrite_writesWell (kind : DescriptorKind)
    (this : DescriptorStreamBuf) (answers : List DescriptorAnswer) :
    WritesWell this.count this.rdstate (this.doWrite kind answers) := by
  cases kind with
  | socket => exact SocketStreamBuf.doWrite_writesWell _ _ answers
  | pipe => exact PipeStreamBuf.doWrite_writesWell _ _ _ answers

/-! ## What is handed over -/

/-- Nothing is lost and nothing repeated. -/
structure Delivers (this : DescriptorStreamBuf) : Prop where
  inOrder : this.handed <+: this.written
  all : this.flushed = true → this.handed = this.written

/-- Of what was written the descriptor has everything but the rest of the put
area. -/
structure Rest (this : DescriptorStreamBuf) : Prop where
  rest : this.written = this.handed ++ (this.put.getD []).drop this.accepted
  inside : this.accepted ≤ this.count

structure Inv (this : DescriptorStreamBuf) : Prop extends Rest this where
  clean : this.flushed = true → this.put.getD [] = []

def flushes (kind : DescriptorKind) (this : DescriptorStreamBuf) : DescriptorCall → Bool
  | .put _ _ => this.put.isSome && !decide (this.count < this.capacity)
  | .flush _ => true
  | .read _ => kind = .socket
  | _ => false

/-- No part of the put area has been accepted when it is handed over to a
stream in a good state. -/
def Meets (kind : DescriptorKind) (this : DescriptorStreamBuf) (call : DescriptorCall) : Prop :=
  this.flushes kind call = true → this.accepted = 0 ∨ this.rdstate.good = false

instance (kind : DescriptorKind) (this : DescriptorStreamBuf)
    (call : DescriptorCall) : Decidable (Meets kind this call) :=
  inferInstanceAs (Decidable (_ → _))

theorem Inv.delivers (inv : Inv this) : Delivers this where
  inOrder := ⟨_, inv.rest.symm⟩
  all flushed := by
    rw [inv.rest, inv.clean flushed, drop_nil, append_nil]

theorem create_inv (capacity : Nat) (wfd : Bool) : Inv (create capacity wfd) where
  rest := rfl
  inside := Nat.le_refl 0
  clean := nofun

theorem sends_rest (rest : Rest this) (fresh : this.accepted = 0 ∨ this.rdstate.good = false)
    {w : Written} (well : WritesWell this.count this.rdstate w) : Rest (this.sends w) := by
  have inside := rest.inside
  have sent := well.inside
  constructor
  · show this.written = this.handed ++ (this.put.getD []).take w.bytesSent ++
      (this.put.getD []).drop (this.accepted + w.bytesSent)
    rcases fresh with new | bad
    · rw [rest.rest, new, Nat.zero_add, append_assoc, take_append_drop, drop_zero]
    · rw [rest.rest, well.idle bad, take_zero, append_nil, Nat.add_zero]
  · show this.accepted + w.bytesSent ≤ this.count
    rcases fresh with new | bad
    · omega
    · rw [well.idle bad]
      exact inside

theorem setp_rest (rest : Rest this) (done : (this.put.getD []).drop this.accepted = []) :
    Rest this.setp where
  rest := by
    show this.written = this.handed ++ []
    rw [rest.rest, done]
  inside := Nat.le_refl 0

theorem sync_rest (kind : DescriptorKind) (rest : Rest this)
    (fresh : this.accepted = 0 ∨ this.rdstate.good = false) (answers : List DescriptorAnswer) :
    Rest (this.sync kind answers).1 ∧
      ((this.sync kind answers).2 = true → (this.sync kind answers).1.put.getD [] = []) := by
  have well := this.doWrite_writesWell kind answers
  have sent := sends_rest rest fresh well
  unfold sync
  by_cases some' : 0 < this.count
  · rw [if_pos some']
    dsimp only
    split
    · exact ⟨sent, nofun⟩
    · rename_i result isResult
      split
      · exact ⟨sent, nofun⟩
      · rename_i success
        refine ⟨setp_rest sent ?_, fun _ => rfl⟩
        have all := well.all result isResult success
        apply drop_eq_nil_of_le
        show this.count ≤ this.accepted + (this.doWrite kind answers).bytesSent
        omega
  · rw [if_neg some']
    have nothing : this.put.getD [] = [] := by
      apply eq_nil_of_length_eq_zero
      exact Nat.eq_zero_of_not_pos some'
    split
    · exact ⟨setp_rest rest (by rw [nothing, drop_nil]), fun _ => rfl⟩
    · exact ⟨rest, fun _ => nothing⟩

section

variable (rest : Rest this)
include rest

theorem store_rest (c : Byte) : Rest (this.store c) where
  rest := by
    show this.written ++ [c] = this.handed ++ (this.put.getD [] ++ [c]).drop this.accepted
    have inside : this.accepted ≤ (this.put.getD []).length := rest.inside
    rw [drop_append_of_le_length inside, rest.rest, append_assoc]
  inside := by
    have inside : this.accepted ≤ (this.put.getD []).length := rest.inside
    show this.accepted ≤ (this.put.getD [] ++ [c]).length
    rw [length_append]
    omega

theorem newArea_rest (done : this.put.getD [] = []) (c : Byte) :
    Rest (if 0 < this.capacity then this.setp.store c else this.setp) := by
  have fresh := setp_rest rest (by rw [done, drop_nil])
  split
  · exact store_rest fresh c
  · exact fresh

theorem overflow_rest
    (fresh : this.put.isSome = true → this.accepted = 0 ∨ this.rdstate.good = false)
    (c : Byte) (answers : List DescriptorAnswer) :
    Rest (this.overflow kind c answers) := by
  unfold overflow
  cases area : this.put with
  | none => exact newArea_rest rest (by rw [area]; rfl) c
  | some put =>
    have flushed := sync_rest kind rest (fresh (by rw [area]; rfl)) answers
    dsimp only
    split
    · rename_i after result
      rw [result] at flushed
      exact flushed.1
    · rename_i after result
      rw [result] at flushed
      exact newArea_rest flushed.1 (flushed.2 rfl) c

theorem sputc_rest {c : Byte} {answers : List DescriptorAnswer}
    (meets : Meets kind this (.put c answers)) :
    Rest (this.sputc kind c answers) := by
  unfold sputc
  split
  · exact store_rest rest c
  · rename_i full
    apply overflow_rest rest
    intro area
    apply meets
    unfold flushes
    rw [area, Bool.true_and, Bool.not_eq_true', decide_eq_false_iff_not]
    exact fun room => full ⟨area, room⟩

theorem underflow_rest {answers : List DescriptorAnswer} (meets : Meets kind this (.read answers)) :
    Rest (this.underflow kind answers) := by
  unfold underflow
  cases kind with
  | socket =>
    dsimp only
    split
    · exact (sync_rest _ rest (meets rfl) answers).1
    · exact rest
  | pipe => exact rest

end

theorem step_inv {after : DescriptorStreamBuf} {call : DescriptorCall} (inv : Inv this)
    (meets : Meets kind this call) (steps : this.step kind call = some after) : Inv after := by
  unfold step at steps
  cases call with
  | put c answers =>
    dsimp only at steps
    split at steps
    · cases steps
    · cases steps
      have rest := sputc_rest inv.toRest meets
      exact ⟨⟨rest.rest, rest.inside⟩, nofun⟩
  | flush answers =>
    dsimp only at steps
    split at steps
    · cases steps
    · cases steps
      have flushed := sync_rest kind inv.toRest (meets rfl) answers
      exact ⟨⟨flushed.1.rest, flushed.1.inside⟩, flushed.2⟩
  | read answers =>
    dsimp only at steps
    split at steps
    · cases steps
    · cases steps
      have rest := underflow_rest inv.toRest meets
      exact ⟨⟨rest.rest, rest.inside⟩, nofun⟩
  | setState rdstate =>
    dsimp only at steps
    split at steps
    · cases steps
    · cases steps
      exact ⟨⟨inv.rest, inv.inside⟩, inv.clean⟩
  | setWriteFd wfd =>
    dsimp only at steps
    split at steps
    · cases steps
    · cases steps
      exact ⟨⟨inv.rest, inv.inside⟩, inv.clean⟩

/-- In a run that never hands over a put area again of which the descriptor has
a part, nothing is lost and nothing repeated. -/
theorem create_run_delivers (kind : DescriptorKind) {capacity : Nat}
    {wfd : Bool} {calls : List DescriptorCall} {last : DescriptorStreamBuf}
    (along : Along (step kind) (Meets kind) (create capacity wfd) calls)
    (runs : run (step kind) (create capacity wfd) calls = some last) :
    Delivers last :=
  have inv : Inv last := run_invariant (fun _ _ _ inv meets steps => step_inv inv meets steps)
    (create_inv capacity wfd) along runs
  inv.delivers

/-- Three characters through a buffer of two, with a send that takes a part. -/
private def threeChars : List DescriptorCall :=
  [.put (ch 'a') [], .put (ch 'b') [],
    .put (ch 'c') [.select .ready, .write .interrupted, .write (.accepted 1),
      .select .ready, .write (.accepted 1)],
    .flush [.select .ready, .write (.accepted 1)]]

theorem create_run_delivers_threeChars :
    ∃ last, run (step .socket) (create 2 true) threeChars = some last ∧
      last.handed = lit "abc" ∧ last.flushed = true ∧ Delivers last := by
  have along : Along (step .socket) (Meets .socket) (create 2 true) threeChars :=
    .cons (by decide) rfl (.cons (by decide) rfl
      (.cons (by decide) rfl (.cons (by decide) rfl trivial)))
  obtain ⟨last, runs, handed, flushed⟩ :
      ∃ last, run (step .socket) (create 2 true) threeChars = some last ∧
        last.handed = lit "abc" ∧ last.flushed = true :=
    ⟨_, rfl, by decide, by decide⟩
  exact ⟨last, runs, handed, flushed, create_run_delivers .socket along runs⟩

/-- A flush that ends with a timeout after one of two bytes, and another one
after the error state has been cleared. -/
private def flushesTwice : List DescriptorCall :=
  [.put (ch 'a') [], .put (ch 'b') [],
    .flush [.select .ready, .write (.accepted 1), .select .timeout],
    .setState .goodbit, .flush [.select .ready, .write (.accepted 2)]]

/-- The byte that has been accepted is sent again. -/
theorem not_create_run_delivers :
    ∃ last, run (step .socket) (create 8 true) flushesTwice = some last ∧
      last.written = lit "ab" ∧ last.handed = lit "aab" ∧
      ¬ Delivers last := by
  refine ⟨_, rfl, by decide, by decide, fun delivers => ?_⟩
  exact absurd delivers.inOrder (by decide)

end DescriptorStreamBuf

end Coast
