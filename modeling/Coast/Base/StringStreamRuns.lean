import Coast.Base.StringStreamPointers
import Coast.Base.StringRuns

/-!
# Runs of an output stream over a string

A stream that reads its text only when the put position is not behind it, and
whose buffer grows for every position that is asked for, has the text that
its writes make.
-/

namespace Coast.StringStream

open StringRep StringStreamBuf RandomAccess Runs Option

/-- The stream is at its position, the buffer holds the text, and the length
is right or becomes right with the put position. -/
structure Follows (this : StringStream) : Prop where
  inside : Inside this.buf
  pos_eq : this.pos = this.buf.pptr
  bounded : this.text.Bounded
  held : this.text.HeldBy this.buf.fStore.block
  size_out : this.buf.fOpenMode.out = true → this.text.size = length this.buf.fStore ∨
      this.text.size = max (length this.buf.fStore) this.buf.pptr.toNat
  size_notOut : this.buf.fOpenMode.out = false → this.text.size = length this.buf.fStore

def NoGap (this : StringStream) : Prop := this.buf.fOpenMode.out = true → this.pos ≤ this.text.size

/-- The length is looked at when there is no gap; a character goes to a
stream that keeps track of its length or in front of its end; a buffer that
has to grow can grow. -/
def Meets (env : StringEnv) (this : StringStream) : StreamCall → Prop
  | .put _ =>
    (this.buf.fOpenMode.out = true ∨ this.pos < length this.buf.fStore) ∧
    (this.buf.epptr ≤ this.buf.pptr → CanGrow env this.buf.adjusted (this.buf.pptr + 1))
  | .get => True
  | .seekpos p mode => NoGap this ∧ Reaches env this.buf.adjusted p mode
  | .seekoff off dir mode => NoGap this ∧ (0 ≤ this.buf.adjusted.target off dir mode →
        Reaches env this.buf.adjusted (this.buf.adjusted.target off dir mode) mode)
  | .str => NoGap this

/-- The put pointer is between the start of the buffer and its last byte. -/
def PutInside (this : StringStream) : Prop :=
  0 ≤ this.buf.pptr ∧ this.buf.pptr ≤ (capacity this.buf.fStore - 1 : Nat)

variable {this : StringStream}

section

variable (follows : Follows this)
include follows

theorem Follows.held_adjusted : this.text.HeldBy this.buf.adjusted.fStore.block := by
  have adjusts := adjusted_spec follows.inside
  apply follows.held.of_agree
  intro i entry known
  have inText := follows.bounded i entry known
  apply adjusts.block_eq
  intro out longer
  have sizes := follows.size_out out
  omega

theorem Follows.size_le : this.text.size ≤ length this.buf.adjusted.fStore := by
  have lengthIs := (adjusted_spec follows.inside).length_eq
  cases out : this.buf.fOpenMode.out with
  | true =>
    have sizes := follows.size_out out
    rw [out, if_pos rfl] at lengthIs
    omega
  | false =>
    have sizes := follows.size_notOut out
    rw [out, if_neg Bool.false_ne_true] at lengthIs
    omega

theorem Follows.size_eq (noGap : NoGap this) :
    this.text.size = length this.buf.adjusted.fStore := by
  have lengthIs := (adjusted_spec follows.inside).length_eq
  have posIs := follows.pos_eq
  cases out : this.buf.fOpenMode.out with
  | true =>
    have sizes := follows.size_out out
    have reached := noGap out
    rw [out, if_pos rfl] at lengthIs
    omega
  | false =>
    have sizes := follows.size_notOut out
    rw [out, if_neg Bool.false_ne_true] at lengthIs
    omega

theorem Follows.held_grown {now : StringStreamBuf} {p : Int}
    (is : now = this.buf.adjusted ∨ this.buf.adjusted.Grown now p) :
    this.text.HeldBy now.fStore.block := by
  rcases is with rfl | grown
  · exact follows.held_adjusted
  · apply follows.held_adjusted.of_agree
    intro i entry known
    apply grown.block_eq
    exact (follows.bounded i entry known).trans_le follows.size_le

end

variable {env : StringEnv}

section

variable (follows : Follows this)
include follows

theorem put_follows {c : Byte} (meets : Meets env this (.put c)) :
    ∃ after, step env this (.put c) = some after ∧ Follows after := by
  have adjusts := adjusted_spec follows.inside
  have posIs := follows.pos_eq
  have nonneg := follows.inside.pptr_nonneg
  rcases sputc_stored (c := c) follows.inside meets.2 with ⟨now, after, puts, stored, is⟩
  refine ⟨⟨after, this.text.write this.pos.toNat c, this.pos + 1⟩, ?_, ?_⟩
  · simp only [step, puts, bind_eq_bind, bind_some]
  · have lengthIs := stored.length_eq
    have held : this.text.HeldBy now.fStore.block := by
      rcases is with ⟨rfl, room⟩ | ⟨grown, full⟩
      · exact follows.held
      · exact follows.held_grown (.inr grown)
    have putIs : now.pptr = this.buf.pptr := by
      rcases is with ⟨rfl, room⟩ | ⟨grown, full⟩
      · rfl
      · exact grown.pptr_eq.trans adjusts.pptr_eq
    have sameMode : now.fOpenMode = this.buf.fOpenMode := by
      rcases is with ⟨rfl, room⟩ | ⟨grown, full⟩
      · rfl
      · exact grown.fOpenMode_eq.trans adjusts.fOpenMode_eq
    constructor
    · exact stored.inside
    · rw [stored.pptr_eq, putIs, posIs]
    · exact follows.bounded.write _ _
    · have inBlock := stored.inBlock
      rw [stored.block_eq, posIs, ← putIs]
      exact held.write inBlock c
    · intro out
      rw [stored.fOpenMode_eq, sameMode] at out
      have sizes := follows.size_out out
      rw [stored.pptr_eq, lengthIs]
      simp only [Written.write]
      rcases is with ⟨rfl, room⟩ | ⟨grown, full⟩
      · omega
      · have sameLength := grown.length_eq
        have longer := adjusts.length_eq
        rw [if_pos out] at longer
        omega
    · intro notOut
      rw [stored.fOpenMode_eq, sameMode] at notOut
      have sizes := follows.size_notOut notOut
      have inText := meets.1.resolve_left (by simp [notOut])
      have usable := follows.inside.usable.length_le
      rw [lengthIs]
      simp only [Written.write]
      rcases is with ⟨rfl, room⟩ | ⟨grown, full⟩
      · omega
      · have end_ := follows.inside.epptr_eq
        omega

theorem sought_follows {mode : OpenMode} {result : StringStreamBuf × Int} {now : StringStreamBuf}
    {p : Int} (noGap : NoGap this) (is : now = this.buf.adjusted ∨ this.buf.adjusted.Grown now p)
    (sought : Sought now mode result) : Follows (this.sought mode result) := by
  have adjusts := adjusted_spec follows.inside
  have sameMode : now.fOpenMode = this.buf.fOpenMode := by
    rcases is with rfl | grown
    · exact adjusts.fOpenMode_eq
    · exact grown.fOpenMode_eq.trans adjusts.fOpenMode_eq
  have putIs : now.pptr = this.buf.pptr := by
    rcases is with rfl | grown
    · exact adjusts.pptr_eq
    · exact grown.pptr_eq.trans adjusts.pptr_eq
  have sizeIs : this.text.size = length result.1.fStore := by
    rw [sought.fStore_eq, follows.size_eq noGap]
    rcases is with rfl | grown
    · rfl
    · exact grown.length_eq.symm
  constructor
  · exact sought.inside
  · simp only [StringStream.sought]
    cases out : mode.out with
    | true =>
      rcases sought.out out with ⟨same, nonneg⟩
      have notEof : result.2 ≠ eof := by
        unfold eof
        omega
      rw [if_pos ⟨rfl, notEof⟩, same]
    | false =>
      rw [if_neg (by simp only [Bool.false_eq_true, false_and,
        not_false_iff]), sought.notOut out, putIs]
      exact follows.pos_eq
  · exact follows.bounded
  · simp only [StringStream.sought]
    rw [sought.fStore_eq]
    exact follows.held_grown is
  · intro _
    exact .inl sizeIs
  · intro _
    exact sizeIs

theorem adjusted_follows (noGap : NoGap this) : Follows { this with buf := this.buf.adjusted } := by
  have adjusts := adjusted_spec follows.inside
  constructor
  · exact adjusts.inside follows.inside
  · exact follows.pos_eq.trans adjusts.pptr_eq.symm
  · exact follows.bounded
  · exact follows.held_adjusted
  · intro _
    exact .inl (follows.size_eq noGap)
  · intro _
    exact follows.size_eq noGap

theorem step_follows {call : StreamCall} (meets : Meets env this call) :
    ∃ after, step env this call = some after ∧ Follows after := by
  have inside := follows.inside
  cases call with
  | put c => exact put_follows follows meets
  | get =>
    refine ⟨_, rfl, ?_⟩
    have frame : ∃ gptr, this.buf.sbumpc.2 = { this.buf with gptr := gptr } := by
      unfold sbumpc
      split
      · exact ⟨_, rfl⟩
      · exact ⟨_, rfl⟩
    rcases frame with ⟨gptr, frame⟩
    rw [frame]
    exact ⟨⟨inside.usable, inside.pptr_nonneg, inside.pptr_le,
      inside.epptr_eq⟩, follows.pos_eq, follows.bounded, follows.held,
      follows.size_out, follows.size_notOut⟩
  | seekpos p mode =>
    have nonneg : (0 : Int) ≤ p := Int.natCast_nonneg p
    rcases seekpos_sought inside nonneg meets.2 with
        ⟨result, seeks, ⟨notOut, failed⟩ | ⟨now, is, sought⟩⟩
    · refine ⟨this.sought mode result, ?_, ?_⟩
      · simp only [step, seeks, bind_eq_bind, bind_some]
      · rw [failed]
        simp only [StringStream.sought, notOut, Bool.false_eq_true, false_and, if_false]
        exact adjusted_follows follows meets.1
    · refine ⟨this.sought mode result, ?_, ?_⟩
      · simp only [step, seeks, bind_eq_bind, bind_some]
      · exact sought_follows follows meets.1 is sought
  | seekoff off dir mode =>
    rcases seekoff_sought inside meets.2 with ⟨result, seeks, ⟨failed, _⟩ | ⟨now, p, is, sought⟩⟩
    · refine ⟨this.sought mode result, ?_, ?_⟩
      · simp only [step, seeks, bind_eq_bind, bind_some]
      · rw [failed]
        simp only [StringStream.sought, ne_eq, not_true_eq_false, and_false, if_false]
        exact adjusted_follows follows meets.1
    · refine ⟨this.sought mode result, ?_, ?_⟩
      · simp only [step, seeks, bind_eq_bind, bind_some]
      · exact sought_follows follows meets.1 is sought
  | str =>
    refine ⟨{ this with buf := this.buf.adjusted }, ?_, adjusted_follows follows meets⟩
    simp only [step, sync, adjustStringLength_eq inside, bind_eq_bind, bind_some]

end

def Target.Usable : Target → Prop
  | .string s => StringRep.Usable s
  | _ => True

theorem store_usable {target : Target} (mode : OpenMode)
    (fits : ∀ size, size ≤ 64 → env.sizeHint (size + tara) ≤ intMax)
    (usable : Target.Usable target) :
    ∃ store, target.store env mode = some store ∧ StringRep.Usable store := by
  have small : (16 : Nat) ≤ 64 := by decide
  rcases alloc_usable (by decide) (fits 64 (Nat.le_refl 64)) with
      ⟨large, allocatesLarge, largeUsable, _⟩
  rcases alloc_usable (by decide) (fits 16 small) with ⟨empty, allocates, emptyUsable, _⟩
  cases target with
  | own => exact ⟨large, allocatesLarge, largeUsable⟩
  | null => exact ⟨empty, allocates, emptyUsable⟩
  | string s =>
    unfold Target.store
    cases mode.trunc with
    | true => exact ⟨empty, allocates, emptyUsable⟩
    | false => exact ⟨s, rfl, usable⟩

theorem text_heldBy {s : StringRep} (usable : StringRep.Usable s) :
    (Written.ofList s.text).HeldBy s.block ∧ s.text.length = length s := by
  cases s with
  | none => exact ⟨fun _ _ known => known, rfl⟩
  | some impl =>
    have room := usable.room rfl
    simp only [length, capacity] at room
    constructor
    · intro i entry known
      simp only [Written.ofList, StringRep.text] at known
      have inside := (List.getElem?_eq_some_iff.mp known).1
      rw [List.length_take] at inside
      rw [List.getElem?_take_of_lt (by omega)] at known
      exact known
    · simp only [StringRep.text, length, List.length_take]
      omega

theorem setbufpointers_new (this : StringStreamBuf) (usable : StringRep.Usable this.fStore) :
    ∃ after, this.setbufpointers 0 0 = some after ∧ Inside after ∧ after.fStore = this.fStore ∧
      after.pptr = if this.fOpenMode.app || this.fOpenMode.ate then
        (length this.fStore : Int) else 0 := by
  obtain ⟨putoffset, mode, moves⟩ :
      ∃ putoffset mode, this.atEnd 0 = (putoffset, mode) := ⟨_, _, rfl⟩
  have putIs : putoffset = if this.fOpenMode.app || this.fOpenMode.ate then
      (length this.fStore : Int) else 0 := by
    have first := congrArg Prod.fst moves
    unfold StringStreamBuf.atEnd at first
    cases appends : this.fOpenMode.app || this.fOpenMode.ate with
    | true =>
      simp only [appends, true_and] at first
      split at first
      · exact first.symm
      · dsimp only at first
        rw [if_pos rfl]
        omega
    | false =>
      simp only [appends, Bool.false_eq_true, false_and, if_false] at first
      rw [if_neg Bool.false_ne_true]
      exact first.symm
  rw [← putIs]
  have lengthLe := usable.length_le
  have nonneg : 0 ≤ putoffset := by
    rw [putIs]
    split <;> omega
  have le : putoffset ≤ (capacity this.fStore - 1 : Nat) := by
    rw [putIs]
    split <;> omega
  cases present : this.fStore with
  | none =>
    rw [present] at le
    have zero : putoffset = 0 := Int.le_antisymm le nonneg
    refine ⟨{ { this with fOpenMode := mode }.setgetpointer 0 with
      pptr := 0, epptr := 0 }, ?_, ?_, ?_, ?_⟩
    · unfold setbufpointers
      rw [moves]
      simp only [setgetpointer, present, capacity, Nat.lt_irrefl, if_false, if_true]
    · refine ⟨usable, Int.le_refl 0, ?_, ?_⟩
      · simp only [setgetpointer, present, capacity]
        decide
      · simp only [setgetpointer, present, capacity]
        decide
    · exact present
    · exact zero.symm
  | some impl =>
    have room := usable.room (by rw [present]; rfl)
    rw [present] at le room
    simp only [length, capacity] at le room
    have inBlock : putoffset < impl.content.length := by omega
    refine ⟨_, setbufpointers_eq present usable (Int.le_refl 0)
      (Int.natCast_nonneg _) moves nonneg inBlock, ?_, present, rfl⟩
    refine ⟨usable, nonneg, ?_, rfl⟩
    simp only [setgetpointer, present, capacity]
    exact le

theorem create_follows {target : Target} (mode : OpenMode)
    (fits : ∀ size, size ≤ 64 → env.sizeHint (size + tara) ≤ intMax)
    (usable : Target.Usable target) :
    ∃ start, create env target mode = some start ∧ Follows start := by
  rcases store_usable mode fits usable with ⟨store, stores, storeUsable⟩
  obtain ⟨openMode, modeIs⟩ : ∃ openMode, openMode =
      if mode.ate || mode.app then { mode with out := true } else mode :=
    ⟨_, rfl⟩
  have flags : (openMode.app || openMode.ate) = (mode.app || mode.ate) := by
    rw [modeIs]
    split <;> rfl
  rcases setbufpointers_new
      ⟨store, openMode, 0, 0, 0, 0, 0⟩ storeUsable with
      ⟨buf, sets, inside, sameStore, putIs⟩
  rcases text_heldBy storeUsable with ⟨held, textLength⟩
  refine ⟨⟨buf, .ofList store.text, if mode.app || mode.ate then store.text.length else 0⟩, ?_, ?_⟩
  · unfold create StringStreamBuf.create
    rw [stores]
    simp only [bind_eq_bind, bind_some, ← modeIs, sets]
  · constructor
    · exact inside
    · rw [putIs, flags]
      dsimp only
      rw [textLength]
    · exact Written.ofList_bounded _
    · rw [sameStore]
      exact held
    · intro _
      rw [sameStore]
      exact .inl textLength
    · intro _
      rw [sameStore]
      exact textLength

theorem run_follows {start : StringStream} {calls : List StreamCall} (follows : Follows start)
    (along : Along (step env) (Meets env) start calls) :
    ∃ last, Runs.run (step env) start calls = some last ∧ Follows last := by
  induction calls generalizing start with
  | nil => exact ⟨start, rfl, follows⟩
  | cons call calls ih =>
    rcases step_follows follows along.1 with ⟨after, steps, next⟩
    rcases ih next (along.2 after steps) with ⟨last, runs, lastFollows⟩
    refine ⟨last, ?_, lastFollows⟩
    simp only [Runs.run, steps, bind_eq_bind, bind_some, runs]

theorem Follows.str (follows : Follows this) (noGap : NoGap this) :
    ∃ buf, this.buf.sync = some buf ∧ this.text.Is buf.fStore.text := by
  have inside := (adjusted_spec follows.inside).inside follows.inside
  have sizeIs := follows.size_eq noGap
  have held := follows.held_adjusted
  have room := inside.usable.room
  refine ⟨this.buf.adjusted, adjustStringLength_eq follows.inside, ?_⟩
  have lengthLe := inside.usable.length_le
  have textIs : this.buf.adjusted.fStore.text =
      this.buf.adjusted.fStore.block.take this.text.size := by
    rw [sizeIs]
    cases this.buf.adjusted.fStore with
    | none => rfl
    | some impl => rfl
  rw [textIs]
  apply held.is_take follows.bounded
  rw [length_block]
  omega

/-- No assertion fails, the put pointer stays inside, and the string has the
text that the writes made. -/
theorem create_run_tracks (env : StringEnv) (target : Target) (mode : OpenMode)
    (fits : ∀ size, size ≤ 64 → env.sizeHint (size + tara) ≤ intMax)
    (usable : Target.Usable target) :
    ∃ start, create env target mode = some start ∧
      ∀ calls, Along (step env) (Meets env) start calls →
        ∃ last, Runs.run (step env) start calls = some last ∧ PutInside last ∧
          (Meets env last .str → ∃ buf, last.buf.sync = some buf ∧
            last.text.Is buf.fStore.text) := by
  rcases create_follows mode fits usable with ⟨start, creates, follows⟩
  refine ⟨start, creates, ?_⟩
  intro calls along
  rcases run_follows follows along with ⟨last, runs, lastFollows⟩
  have inside := lastFollows.inside
  exact ⟨last, runs, ⟨inside.pptr_nonneg, inside.pptr_le⟩, fun noGap => lastFollows.str noGap⟩

private def outMode : OpenMode := ⟨false, true, false, false, false⟩

private def endMode : OpenMode := ⟨false, true, false, true, false⟩

private def full : StringRep := some ⟨[ch 'a', 0], 1⟩

private def atItsEnd : StringStream :=
  ⟨⟨full, outMode, 1, 0, 1, 1, 1⟩, .ofList full.text, full.text.length⟩

private def calls : List StreamCall := [.put (ch 'b'), .seekpos 0 outMode, .put (ch 'c')]

private theorem along_calls : Along (step wordEnv) (Meets wordEnv) atItsEnd calls := by
  apply Along.cons
  · refine ⟨.inl rfl, fun _ => ⟨rfl, by decide, ?_⟩⟩
    exact ⟨by decide, by decide, rfl, by decide⟩
  · rfl
  apply Along.cons
  · exact ⟨fun _ => by decide, fun _ beyond => absurd beyond (by decide)⟩
  · rfl
  apply Along.cons
  · exact ⟨.inl rfl, fun beyond => absurd beyond (by decide)⟩
  · rfl
  trivial

/-- The buffer grows for the second character, and the first one is
replaced. -/
theorem create_run_tracks_full :
    ∃ start last, create wordEnv (.string full) endMode = some start ∧
      Runs.run (step wordEnv) start calls = some last ∧ PutInside last ∧
      ∃ buf, last.buf.sync = some buf ∧ last.text.Is buf.fStore.text := by
  have fits : ∀ size, size ≤ 64 → wordEnv.sizeHint (size + tara) ≤ intMax := by
    intro size small
    unfold wordEnv tara intMax
    dsimp only
    omega
  have usable : Target.Usable (.string full) := ⟨fun _ => by decide, by decide⟩
  rcases create_run_tracks wordEnv (.string full) endMode fits usable with ⟨start, creates, tracks⟩
  have begins : create wordEnv (.string full) endMode = some atItsEnd := rfl
  rw [begins] at creates
  cases creates
  rcases tracks calls along_calls with ⟨last, runs, inside, str⟩
  refine ⟨atItsEnd, last, begins, runs, inside, str ?_⟩
  have ends : Runs.run (step wordEnv) atItsEnd calls = some _ := rfl
  rw [ends] at runs
  cases runs
  intro _
  decide

private def fresh : StringStream :=
  ⟨⟨some ⟨List.replicate 64 0, 0⟩, outMode, 0, 0, 0, 0, 63⟩, .ofList [], 0⟩

/-- The stream asks `Reserve` for the bytes behind the capacity, but
`Reserve` counts from the length. -/
theorem not_create_run_tracks :
    ¬ ∀ start, create wordEnv .own outMode = some start →
      ∃ last, Runs.run (step wordEnv) start [.seekpos 100 outMode] =
        some last ∧ PutInside last := by
  intro tracks
  have begins : create wordEnv .own outMode = some fresh := rfl
  rcases tracks fresh begins with ⟨last, runs, inside⟩
  have ends : Runs.run (step wordEnv) fresh [.seekpos 100 outMode] =
      some { fresh with buf := { fresh.buf with pptr := 100 }, pos := 100 } :=
    rfl
  rw [ends] at runs
  cases runs
  exact absurd inside.2 (by decide)

end Coast.StringStream
