import Coast.Base.MmapStreamCalls

/-!
# Runs of a stream over a mapped file

A stream whose length is looked at only when the put position is not behind
the end, and which does not go back to the start of the file from a later
window, leaves the file that its calls make of a plain file.
-/

namespace Coast.MmapStream

open MmapStreamBuf PaddedText Runs Option
open StringStreamBuf (asInt)

variable {pageSize : Nat}

theorem close_eq {this : MmapStream} (follows : Follows this)
    (noGap : NoGap this) : this.buf.close = this.plain.bytes := by
  have lengthIs := follows.fLength_eq
  have cut := follows.shows'.resize
  unfold close MmapStreamBuf.sync syncOutput
  rw [if_pos follows.placed.out, adjustFileLength_eq follows noGap]
  dsimp only
  split
  · rw [Int.toNat_natCast]
    exact cut
  · rename_i whole
    rw [follows.placed.isOpen, follows.placed.out, Bool.true_and,
      Bool.true_and, decide_eq_true_eq, not_not, lengthIs, Int.natCast_inj]
      at whole
    rw [whole] at cut
    rw [← cut]
    exact (resize_self this.buf.file).symm

/-! ## A stream that is opened -/

theorem magic_spec {mode : OpenMode} (out : (mode.out || mode.app || mode.ate) = true) :
    mode.magic.out = true ∧ mode.magic.app = mode.app ∧ mode.magic.ate = mode.ate ∧
      (mode.magic.trunc = false → (mode.app || mode.ate) = true) := by
  revert out
  rcases mode with ⟨_ | _, _ | _, _ | _, _ | _, _ | _⟩ <;> decide

def unmapped (file : Bytes) (fFl : OpenMode) : MmapStreamBuf :=
  { file, fFl, fMapFd := true, fLength := file.length, fMapOffset := 0,
    fFileLength := file.length, fAddr := false, gptr := 0, egptr := 0,
    pptr := 0, epptr := 0 }

theorem unmapped_placed (file : Bytes) {fFl : OpenMode}
    (out : fFl.out = true) : Placed (unmapped file fFl) 0 :=
  ⟨rfl, out, Int.le_refl 0, rfl, Int.le_refl 0, fun _ => ⟨rfl, rfl⟩, fun _ => rfl, fun _ => rfl⟩

theorem xinit_bytes {file : Bytes} {fFl : OpenMode} (out : fFl.out = true)
    (appends : (fFl.app || fFl.ate) = true) (some' : file ≠ []) (fits : file.length < 2 ^ 31) :
    ∃ buf, xinit pageSize (unmapped file fFl) = (true, buf) ∧
      buf.fFileLength ≠ 0 ∧ Follows ⟨buf, file, file.length, fFl.app⟩ := by
  have positive := List.length_pos_iff.mpr some'
  have placed := unmapped_placed file out
  have atTop : windowFor pageSize fFl 0 = 0 := windowFor_zero fFl
  have long : windowFor pageSize (unmapped file fFl).fFl 0 < (unmapped file fFl).file.length := by
    unfold unmapped
    dsimp only
    omega
  rcases xinit_remapped placed long with ⟨buf, maps, remapped⟩
  have put : putAfter (unmapped file fFl) 0 = file.length := by
    unfold putAfter unmapped
    dsimp only
    rw [appends, if_pos rfl]
    omega
  have putIs := remapped.pptr_eq
  have offsetIs := remapped.fMapOffset_eq
  have lengthIs := remapped.fLength_eq
  have sizeIs := remapped.fFileLength_eq
  have fileIs := remapped.file_eq
  unfold unmapped at offsetIs lengthIs sizeIs fileIs
  dsimp only at offsetIs lengthIs sizeIs fileIs
  rw [put, offsetIs, atTop, asInt_of_fits (by omega) (by omega)] at putIs
  have fileLength := congrArg List.length fileIs
  have flags : buf.fFl.app = fFl.app := by
    rcases remapped.fFl_eq with same | same <;> rw [same] <;> rfl
  refine ⟨buf, maps, by omega, ?_⟩
  constructor
  · apply remapped.placed placed (Int.natCast_nonneg _)
    · dsimp only
      omega
    · intro _
      omega
  · exact fun _ => remapped.mapped
  · dsimp only
    omega
  · dsimp only
    omega
  · dsimp only
    omega
  · exact remapped.epptr_eq
  · exact flags.symm
  · dsimp only
    omega
  · left
    dsimp only
    omega
  · dsimp only
    omega
  · dsimp only
    rw [fileIs]
    exact fun _ => rfl

theorem xinit_empty {fFl : OpenMode} (out : fFl.out = true) :
    xinit pageSize (unmapped [] fFl) = (true, unmapped [] fFl) := by
  have zero : asInt 0 = 0 := by decide
  simp [xinit, setPointers, atEnd, isvalid, putOffset, getOffset, unmapped, out, zero]

theorem unmapped_follows {fFl : OpenMode} (out : fFl.out = true) :
    Follows ⟨unmapped [] fFl, [], 0, fFl.app⟩ where
  placed := unmapped_placed [] out
  mapped := fun long => absurd long (Int.lt_irrefl 0)
  fLength_eq := rfl
  inside := Nat.le_refl 0
  offset_le := Int.le_refl 0
  epptr_eq := rfl
  append_eq := rfl
  nonneg := Int.le_refl 0
  size := .inl rfl
  size_le := Nat.le_refl 0
  shows' := fun _ => rfl

theorem reserve_empty (page : 0 < pageSize) {fFl : OpenMode} (out : fFl.out = true) :
    ∃ buf, reserve pageSize (unmapped [] fFl) 16 = some (true, buf) ∧
      Follows ⟨buf, [], 0, fFl.app⟩ := by
  have follows := unmapped_follows out
  have window : windowFor pageSize fFl 0 = 0 := windowFor_zero fFl
  have fits : ((0 : Nat) : Int) - windowFor pageSize fFl (0 : Nat) < 2 ^ 31 := by
    rw [Int.natCast_zero, window]
    decide
  have more : (0 : Int) < 16 := by decide
  rcases follows.grow page rfl fits more with ⟨buf, reserves, _, room, sizeIs⟩
  exact ⟨buf, reserves, room.follows sizeIs.symm⟩

def opened (pageSize : Nat) (out : Bool) (result : Bool × MmapStreamBuf) : Option MmapStreamBuf :=
  if result.1 then
    if result.2.fFileLength = 0 && out then
      (result.2.reserve pageSize 16).map Prod.snd
    else some result.2
  else none

theorem open_follows (page : 0 < pageSize) {file : Bytes} {mode : OpenMode}
    (out : (mode.out || mode.app || mode.ate) = true)
    (fits : mode.magic.trunc = false → file.length < 2 ^ 31) :
    ∃ buf, MmapStreamBuf.open_ pageSize file mode = some buf ∧
      Follows ⟨buf, .opened file mode⟩ := by
  rcases magic_spec out with ⟨isOut, sameApp, sameAte, keeps⟩
  obtain ⟨bytes, isBytes⟩ : ∃ bytes, bytes =
      if mode.magic.trunc = true then [] else file := ⟨_, rfl⟩
  have opens : MmapStreamBuf.open_ pageSize file mode =
      opened pageSize mode.out (xinit pageSize (unmapped bytes mode.magic)) := by
    rw [isBytes]
    rfl
  unfold PlainFile.opened
  dsimp only
  rw [opens, ← isBytes, ← sameApp]
  unfold opened
  by_cases empty : bytes = []
  · rw [empty, xinit_empty isOut, if_pos rfl, List.length_nil, ite_self]
    rcases reserve_empty page isOut with ⟨buf, reserves, follows⟩
    cases mode.out with
    | true =>
      refine ⟨buf, ?_, follows⟩
      have atTop : ((unmapped [] mode.magic).fFileLength = 0 && true) = true := rfl
      rw [if_pos atTop, reserves]
      rfl
    | false =>
      refine ⟨unmapped [] mode.magic, ?_, unmapped_follows isOut⟩
      rw [Bool.and_false, if_neg Bool.false_ne_true]
  · have notTrunc : mode.magic.trunc = false := by
      cases trunc : mode.magic.trunc with
      | false => rfl
      | true =>
        rw [trunc, if_pos rfl] at isBytes
        exact absurd isBytes empty
    have appends := keeps notTrunc
    rw [← sameApp, ← sameAte] at appends
    rw [notTrunc, if_neg Bool.false_ne_true] at isBytes
    rw [isBytes] at empty ⊢
    rcases xinit_bytes isOut appends empty (fits notTrunc) with ⟨buf, maps, some', follows⟩
    rw [maps, if_pos rfl]
    dsimp only
    rw [decide_eq_false some', Bool.false_and, if_neg Bool.false_ne_true, ← sameAte, if_pos appends]
    exact ⟨buf, rfl, follows⟩

theorem run_follows (page : 0 < pageSize) (isInt : pageSize < 2 ^ 31)
    {start : MmapStream} {calls : List FileCall} (follows : Follows start)
    (along : Along (step pageSize) (Meets pageSize) start calls) :
    ∃ last, Runs.run (step pageSize) start calls = some last ∧ Follows last ∧
      Always (step pageSize) PutInside start calls ∧
      last.plain = calls.foldl PlainFile.step start.plain := by
  induction calls generalizing start with
  | nil => exact ⟨start, rfl, follows, follows.putInside, rfl⟩
  | cons call calls ih =>
    rcases step_follows page isInt follows along.1 with ⟨after, steps, next⟩
    rcases ih next (along.2 after steps) with ⟨last, runs, follows', always, plain⟩
    refine ⟨last, ?_, follows', ⟨follows.putInside, ?_⟩, ?_⟩
    · simp only [Runs.run, steps, bind_eq_bind, bind_some, runs]
    · intro other alsoSteps
      rw [steps] at alsoSteps
      cases alsoSteps
      exact always
    · rcases bind_eq_some_iff.mp steps with ⟨buf, _, same⟩
      cases same
      exact plain

/-- A stream whose calls meet the condition keeps its put pointer inside the
window and leaves the file that the calls make of a plain file. -/
theorem open_run_plain (page : 0 < pageSize) (isInt : pageSize < 2 ^ 31)
    (file : Bytes) (mode : OpenMode) (out : (mode.out || mode.app || mode.ate) = true)
    (fits : mode.magic.trunc = false → file.length < 2 ^ 31) :
    ∃ start, open_ pageSize file mode = some start ∧
      ∀ calls, Along (step pageSize) (Meets pageSize) start calls →
        ∃ last, Runs.run (step pageSize) start calls = some last ∧
          Always (step pageSize) PutInside start calls ∧
          (NoGap last → last.buf.close =
            (calls.foldl PlainFile.step (.opened file mode)).bytes) := by
  rcases open_follows page out fits with ⟨buf, opens, follows⟩
  refine ⟨⟨buf, .opened file mode⟩, ?_, ?_⟩
  · unfold open_
    rw [opens]
    rfl
  · intro calls along
    rcases run_follows page isInt follows along with ⟨last, runs, follows', always, plain⟩
    refine ⟨last, runs, always, fun noGap => ?_⟩
    rw [close_eq follows' noGap, plain]

private def outOnly : OpenMode := ⟨false, true, false, false, false⟩

private def appending : OpenMode := ⟨false, true, true, false, false⟩

private def atItsEnd : MmapStream :=
  ⟨⟨[ch 'a'], true, 1, 0, 1, true, 0, 1, 1, 1, appending⟩, ⟨[ch 'a'], 1, true⟩⟩

private def appendCalls : List FileCall :=
  [.put (ch 'b'), .seekpos 0, .put (ch 'c'), .sync, .seekoff (-1) .end_]

private theorem along_appendCalls : Along (step 2) (Meets 2) atItsEnd appendCalls := by
  apply Along.cons
  · exact fun _ => by decide
  · rfl
  apply Along.cons
  · exact ⟨by decide, by decide, by decide, by decide, by decide⟩
  · rfl
  apply Along.cons
  · exact fun _ => by decide
  · rfl
  apply Along.cons
  · change NoGap _
    decide
  · rfl
  apply Along.cons
  · exact ⟨fun _ => by decide, fun _ =>
      ⟨by decide, by decide, by decide, by decide⟩⟩
  · rfl
  trivial

/-- Two bytes are appended to a file with pages of two bytes. -/
theorem open_run_plain_append :
    ∃ start last, open_ 2 [ch 'a'] appending = some start ∧
      Runs.run (step 2) start appendCalls = some last ∧
      Always (step 2) PutInside start appendCalls ∧
      last.buf.close = lit "abc" := by
  rcases open_run_plain (by decide : 0 < 2) (by decide) [ch 'a'] appending rfl
    (fun _ => by decide) with ⟨start, opens, tracks⟩
  have begins : open_ 2 [ch 'a'] appending = some atItsEnd := by decide
  rw [begins] at opens
  cases opens
  rcases tracks appendCalls along_appendCalls with ⟨last, runs, always, closes⟩
  refine ⟨atItsEnd, last, begins, runs, always, ?_⟩
  have ends : Runs.run (step 2) atItsEnd appendCalls = some _ := rfl
  rw [ends] at runs
  cases runs
  rw [closes (by decide)]
  decide

/-- A seek from the end does not see what was written since the length was
last looked at. -/
theorem not_open_run_plain :
    ¬ ∀ (pageSize : Nat) (file : Bytes) (mode : OpenMode)
      (calls : List FileCall), 0 < pageSize → pageSize < 2 ^ 31 →
      (mode.out || mode.app || mode.ate) = true →
      ∃ start last, open_ pageSize file mode = some start ∧
        Runs.run (step pageSize) start calls = some last ∧
        Always (step pageSize) PutInside start calls ∧
        last.buf.close = (calls.foldl PlainFile.step (.opened file mode)).bytes := by
  intro tracks
  rcases tracks 4096 [] outOnly
    [.put (ch 'a'), .put (ch 'b'), .seekoff 0 .end_, .put (ch 'c')]
    (by decide) (by decide) rfl with ⟨start, last, opens, runs, _, closes⟩
  have ends : ((open_ 4096 [] outOnly).bind fun start =>
      Runs.run (step 4096) start [.put (ch 'a'), .put (ch 'b'),
        .seekoff 0 .end_, .put (ch 'c')]).map (·.buf.close) =
      some (lit "cb") := by
    decide +kernel
  rw [opens, bind_some, runs, map_some, closes] at ends
  revert ends
  decide

end Coast.MmapStream
