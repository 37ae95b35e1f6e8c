import Coast.Compress.ZipTrailer

/-!
# Reading to the end

The data is delivered exactly when no refill is empty in front of the end and
none begins with the byte that `underflow` answers the end of file with.
-/

namespace Coast.ZipIStreamBuf

section

open List Option

variable {z : Zlib} {capacity : Nat} {data text trailer : Bytes}

def emptied (this : ZipIStreamBuf z) : ZipIStreamBuf z := { this with getArea := [] }

/-- In front of the end of the stream zlib answers to no block of the file with
nothing, and to none with bytes that begin with the one that `underflow`
answers the end of file with. -/
inductive RefillsFine (z : Zlib) (capacity : Nat) : z.Inflate → Bytes → Bytes → Prop
  | last {s : z.Inflate} {avail file : Bytes}
      (ended : (z.answer capacity s avail file).err = Z_STREAM_END)
      (marker : (z.answer capacity s avail file).out.head? ≠ some 0xff) :
      RefillsFine z capacity s avail file
  | next {s : z.Inflate} {avail file : Bytes}
      (goesOn : (z.answer capacity s avail file).err = Z_OK)
      (some_out : (z.answer capacity s avail file).out ≠ [])
      (marker : (z.answer capacity s avail file).out.head? ≠ some 0xff)
      (rest : RefillsFine z capacity (z.answer capacity s avail file).state
        (z.untaken capacity s avail file) (Zlib.below capacity avail file)) :
      RefillsFine z capacity s avail file

theorem toInt_eq_EOF (byte : Byte) : byte.toInt = EOF ↔ byte = 0xff := by
  constructor
  · intro isEOF
    apply BitVec.eq_of_toInt_eq
    rw [isEOF]
    decide
  · intro isMarker
    rw [isMarker]
    decide

section

variable {this after : ZipIStreamBuf z}

theorem sbumpc_area {byte : Byte} {rest : Bytes} (area : this.getArea = byte :: rest) :
    this.sbumpc capacity = some (some byte, { this with getArea := rest }) := by
  have notEmpty : this.getArea ≠ [] := by
    rw [area]
    exact cons_ne_nil byte rest
  unfold sbumpc next
  rw [if_neg notEmpty, area]

theorem emptied_eq (empty : this.getArea = []) : this.emptied = this := by
  unfold emptied
  rw [← empty]

theorem sgetn_area (n : Nat) (p : Bytes) (area : this.getArea = p) :
    this.sgetn capacity (p.length + n) =
      (this.emptied.sgetn capacity n).map fun (s, last) => (p ++ s, last) := by
  induction p generalizing this with
  | nil =>
    rw [emptied_eq area, length_nil, Nat.zero_add]
    cases this.sgetn capacity n with
    | none => rfl
    | some read => rfl
  | cons byte p ih =>
    have tail := @ih { this with getArea := p } rfl
    rw [length_cons, Nat.add_right_comm, sgetn]
    simp only [sbumpc_area area, bind_eq_bind, bind_some]
    rw [tail]
    show Option.bind (Option.map _ (this.emptied.sgetn capacity n)) _ = _
    cases this.emptied.sgetn capacity n with
    | none => rfl
    | some read => rfl

theorem sbumpc_synced (empty : this.getArea = []) (unended : this.fZipErr ≠ Z_STREAM_END)
    (syncs : this.sync capacity = some (0, after)) :
    this.sbumpc capacity = some
      (if after.current.1 = EOF then (none, after.current.2)
      else after.current.2.next) := by
  have flows : this.underflow capacity = some after.current := by
    unfold underflow
    rw [if_pos ⟨empty, unended⟩, syncs]
    rfl
  unfold sbumpc uflow
  rw [if_pos empty, flows]
  rfl

theorem sgetn_synced (n : Nat) (empty : this.getArea = []) (unended : this.fZipErr ≠ Z_STREAM_END)
    (syncs : this.sync capacity = some (0, after)) :
    this.sgetn capacity (n + 1) = if after.getArea = [] then some ([], after.atEnd)
      else if after.getArea.head? = some 0xff then some ([], after)
      else after.sgetn capacity (n + 1) := by
  have bumps := sbumpc_synced empty unended syncs
  rw [sgetn, bumps]
  cases area : after.getArea with
  | nil =>
    have ends : after.current = (EOF, after.atEnd) := by
      unfold current
      rw [area]
    rw [ends, if_pos rfl, if_pos rfl]
    rfl
  | cons byte rest =>
    have goes : after.current = (byte.toInt, after) := by
      unfold current
      rw [area]
    rw [goes, if_neg (cons_ne_nil byte rest), head?_cons]
    by_cases marker : byte = 0xff
    · rw [if_pos ((toInt_eq_EOF byte).mpr marker), if_pos (congrArg some marker)]
      rfl
    · have notEOF : ¬ byte.toInt = EOF := fun isEOF => marker ((toInt_eq_EOF byte).mp isEOF)
      have taken : after.next = (some byte, { after with getArea := rest }) := by
        unfold next
        rw [area]
      rw [if_neg notEOF, if_neg fun same => marker (Option.some.inj same),
        sgetn, sbumpc_area area, taken]

theorem sgetn_ended (n : Nat) (empty : this.getArea = []) (ended : this.fZipErr = Z_STREAM_END) :
    this.sgetn capacity (n + 1) = some ([], this.atEnd) := by
  have ends : this.current = (EOF, this.atEnd) := by
    unfold current
    rw [empty]
  have bumps : this.sbumpc capacity = some (none, this.atEnd) := by
    unfold sbumpc uflow underflow
    rw [if_pos empty, if_neg fun both => both.2 ended, ends]
    rfl
  rw [sgetn, bumps]
  rfl

end

section

variable {this : ZipIStreamBuf z} {c o : Bytes}

theorem zipinit_emptied_eq (isInitialized : this.isInitialized = true) :
    this.emptied.zipinit = this.emptied := if_pos isInitialized

theorem Reading.emptied (reading : Reading text trailer this c o) :
    Reading text trailer this.emptied.zipinit c o := by
  rw [zipinit_emptied_eq reading.isInitialized]
  exact { reading with }

theorem zipinit_emptied : this.emptied.zipinit.getArea = [] := by
  unfold zipinit
  split
  · rfl
  · rfl

variable {after : ZipIStreamBuf z}

theorem sgetn_refilled (n : Nat) (unended : this.fZipErr ≠ Z_STREAM_END)
    (syncs : this.emptied.sync capacity = some (0, after)) (some_out : after.getArea ≠ [])
    (marker : after.getArea.head? ≠ some 0xff) :
    this.emptied.sgetn capacity (after.getArea.length + n) =
      (after.emptied.sgetn capacity n).map fun (s, last) => (after.getArea ++ s, last) := by
  have long := length_pos_iff.mpr some_out
  obtain ⟨m, isLong⟩ : ∃ m, after.getArea.length + n = m + 1 :=
    ⟨after.getArea.length + n - 1, by omega⟩
  have empty : this.emptied.getArea = [] := rfl
  have unended' : this.emptied.fZipErr ≠ Z_STREAM_END := unended
  rw [← sgetn_area n after.getArea rfl, isLong,
    sgetn_synced m empty unended' syncs, if_neg some_out, if_neg marker]

theorem sgetn_nothing (n : Nat) (unended : this.fZipErr ≠ Z_STREAM_END)
    (syncs : this.emptied.sync capacity = some (0, after)) (nothing : after.getArea = []) :
    this.emptied.sgetn capacity (n + 1) = some ([], after.atEnd) := by
  have empty : this.emptied.getArea = [] := rfl
  have unended' : this.emptied.fZipErr ≠ Z_STREAM_END := unended
  rw [sgetn_synced n empty unended' syncs, if_pos nothing]

theorem sgetn_marker (n : Nat) (unended : this.fZipErr ≠ Z_STREAM_END)
    (syncs : this.emptied.sync capacity = some (0, after)) (some_out : after.getArea ≠ [])
    (marker : after.getArea.head? = some 0xff) :
    this.emptied.sgetn capacity (n + 1) = some ([], after) := by
  have empty : this.emptied.getArea = [] := rfl
  have unended' : this.emptied.fZipErr ≠ Z_STREAM_END := unended
  rw [sgetn_synced n empty unended' syncs, if_neg some_out, if_pos marker]

theorem sgetn_last (n : Nat) (unended : this.fZipErr ≠ Z_STREAM_END)
    (syncs : this.emptied.sync capacity = some (0, after)) (ended : after.fZipErr = Z_STREAM_END)
    (marker : after.getArea.head? ≠ some 0xff) :
    this.emptied.sgetn capacity (after.getArea.length + (n + 1)) =
      some (after.getArea, after.emptied.atEnd) := by
  by_cases nothing : after.getArea = []
  · rw [nothing, length_nil, Nat.zero_add,
      sgetn_nothing n unended syncs nothing, emptied_eq nothing]
  · have ends : after.emptied.sgetn capacity (n + 1) =
        some ([], after.emptied.atEnd) := sgetn_ended n rfl ended
    rw [sgetn_refilled (n + 1) unended syncs nothing marker, ends, map_some]
    dsimp only
    rw [append_nil]

theorem RefillsFine.delivers {state : z.Inflate} {avail file : Bytes}
    (fine : RefillsFine z capacity state avail file) (contract : z.Contract)
    (encodes : z.Encodes data text) (behind : trailer ≠ []) (positive : 0 < capacity)
    (reading : Reading text trailer this.emptied.zipinit c o)
    (isState : this.emptied.zipinit.fZip = state) (isAvail : this.emptied.zipinit.avail_in = avail)
    (isFile : this.emptied.zipinit.fIs = file) (unended : this.fZipErr ≠ Z_STREAM_END)
    {n : Nat} {rest : Bytes} (split : o ++ rest = data) (enough : rest.length < n) :
    ∃ last, this.emptied.sgetn capacity n = some (rest, last) ∧ Ended data trailer last := by
  induction fine generalizing this c o n rest with
  | last ended marker =>
    rcases reading.sync contract encodes behind positive zipinit_emptied
      with ⟨after, syncs, refilled⟩
    have answered := reading.answered encodes behind positive zipinit_emptied syncs
    rw [← isState, ← isAvail, ← isFile] at ended marker
    rw [← answered.fZipErr] at ended
    rw [← answered.getArea] at marker
    cases refilled with
    | reading still right progress longer =>
      rw [still.fZipErr] at ended
      exact absurd ended (by decide)
    | ended atEnd all =>
      have isRest : rest = after.getArea := append_cancel_left (split.trans all.symm)
      obtain ⟨m, isLong⟩ : ∃ m, n = after.getArea.length + (m + 1) := by
        rw [isRest] at enough
        exact ⟨n - after.getArea.length - 1, by omega⟩
      refine ⟨after.emptied.atEnd, ?_, { atEnd with }⟩
      rw [isLong, sgetn_last m unended syncs ended marker, isRest]
  | next goesOn some_out marker fine ih =>
    rcases reading.sync contract encodes behind positive zipinit_emptied
      with ⟨after, syncs, refilled⟩
    have answered := reading.answered encodes behind positive zipinit_emptied syncs
    rw [← isState, ← isAvail, ← isFile] at goesOn some_out marker ih
    rw [← answered.fZipErr] at goesOn
    rw [← answered.getArea] at some_out marker
    cases refilled with
    | ended atEnd all =>
      rw [atEnd.fZipErr] at goesOn
      exact absurd goesOn (by decide)
    | reading still right progress longer =>
      rcases right with ⟨rest', split'⟩
      have isRest : rest = after.getArea ++ rest' := by
        rw [← split', append_assoc] at split
        exact append_cancel_left split
      rw [isRest, length_append] at enough
      obtain ⟨m, isLong⟩ : ∃ m, n = after.getArea.length + m := ⟨n - after.getArea.length, by omega⟩
      have same := zipinit_emptied_eq still.isInitialized
      have unended' : after.fZipErr ≠ Z_STREAM_END := by
        rw [goesOn]
        decide
      rcases ih still.emptied (by rw [same]; exact answered.fZip)
        (by rw [same]; exact answered.avail_in) (by rw [same]; exact answered.fIs) unended' split'
        (by omega : rest'.length < m) with ⟨last, gets, ends⟩
      refine ⟨last, ?_, ends⟩
      rw [isLong, sgetn_refilled m unended syncs some_out marker, gets, isRest]
      rfl

theorem Refilled.begins {rest : Bytes} (refilled : Refilled data text trailer c o after)
    (split : o ++ rest = data) : ∃ rest', rest = after.getArea ++ rest' := by
  cases refilled with
  | ended ended all =>
    refine ⟨[], ?_⟩
    rw [append_nil]
    exact append_cancel_left (split.trans all.symm)
  | reading reading right progress longer =>
    rcases right with ⟨rest', split'⟩
    refine ⟨rest', ?_⟩
    rw [← split', append_assoc] at split
    exact append_cancel_left split

theorem fine_of_delivers (contract : z.Contract) (encodes : z.Encodes data text)
    (behind : trailer ≠ []) (positive : 0 < capacity) {left : Nat}
    (reading : Reading text trailer this.emptied.zipinit c o)
    (unended : this.fZipErr ≠ Z_STREAM_END) {n : Nat}
    {rest : Bytes} (split : o ++ rest = data) (enough : rest.length < n) {last : ZipIStreamBuf z}
    (gets : this.emptied.sgetn capacity n = some (rest, last)) (ended : last.fZipErr = Z_STREAM_END)
    (bound : text.length + rest.length < left + c.length) :
    RefillsFine z capacity this.emptied.zipinit.fZip this.emptied.zipinit.avail_in
      this.emptied.zipinit.fIs := by
  induction left generalizing this c o n rest with
  | zero =>
    have inside := reading.inside.length_le
    omega
  | succ left ih =>
    rcases reading.sync contract encodes behind positive zipinit_emptied
      with ⟨after, syncs, refilled⟩
    have answered := reading.answered encodes behind positive zipinit_emptied syncs
    by_cases nothing : after.getArea = []
    · obtain ⟨m, isLong⟩ : ∃ m, n = m + 1 := ⟨n - 1, by omega⟩
      rw [isLong, sgetn_nothing m unended syncs nothing] at gets
      cases gets
      refine .last (answered.fZipErr.symm.trans ended) ?_
      rw [← answered.getArea, nothing]
      decide
    rcases refilled.begins split with ⟨rest', isRest⟩
    by_cases marker : after.getArea.head? = some 0xff
    · -- The refill would be taken for the end of file.
      obtain ⟨m, isLong⟩ : ∃ m, n = m + 1 := ⟨n - 1, by omega⟩
      have stops := sgetn_marker m unended syncs nothing marker
      rw [← isLong, gets] at stops
      cases stops
      exact absurd (append_eq_nil_iff.mp isRest.symm).1 nothing
    have noMarker := marker
    rw [answered.getArea] at noMarker
    cases refilled with
    | ended atEnd all => exact .last (answered.fZipErr.symm.trans atEnd.fZipErr) noMarker
    | reading still right progress longer =>
      rw [isRest, length_append] at enough bound
      obtain ⟨m, isLong⟩ : ∃ m, n = after.getArea.length + m := ⟨n - after.getArea.length, by omega⟩
      rw [isLong, sgetn_refilled m unended syncs nothing marker] at gets
      rcases map_eq_some_iff.mp gets with ⟨⟨s, last'⟩, gets', same⟩
      cases same
      have isTail : s = rest' := append_cancel_left isRest
      have unended' : after.fZipErr ≠ Z_STREAM_END := by
        rw [still.fZipErr]
        decide
      have split' : (o ++ after.getArea) ++ s = data := by
        rw [append_assoc]
        exact split
      rw [← isTail] at enough bound
      have enough' : s.length < m := by omega
      have fine := ih still.emptied unended' split' enough' gets' (by omega)
      have some_out := nothing
      rw [zipinit_emptied_eq still.isInitialized] at fine
      rw [show after.emptied.fZip = _ from answered.fZip,
        show after.emptied.avail_in = _ from answered.avail_in,
        show after.emptied.fIs = _ from answered.fIs] at fine
      rw [answered.getArea] at some_out
      exact .next (answered.fZipErr.symm.trans still.fZipErr) some_out noMarker fine

end

end

/-!
## From one stream to the other

What was written and closed is read to its end and closed.  Reading in blocks
is reading bytes.
-/

open List Option

variable {z : Zlib} {capacity : Nat}

theorem sgetn_length_le {n : Nat} {this last : ZipIStreamBuf z} {s : Bytes}
    (gets : this.sgetn capacity n = some (s, last)) : s.length ≤ n := by
  induction n generalizing this s with
  | zero =>
    cases gets
    exact Nat.le_refl 0
  | succ n ih =>
    rw [sgetn, bind_eq_bind] at gets
    rcases bind_eq_some_iff.mp gets with ⟨⟨c, next⟩, bumps, rest⟩
    cases c with
    | none =>
      cases rest
      exact Nat.zero_le _
    | some byte =>
      dsimp only at rest
      rcases bind_eq_some_iff.mp rest with ⟨⟨s', last'⟩, gets', same⟩
      cases same
      exact Nat.succ_le_succ (ih gets')

theorem sgetn_add (n m : Nat) (this : ZipIStreamBuf z) :
    this.sgetn capacity (n + m) = (this.sgetn capacity n).bind fun (s, next) =>
        if s.length < n then some (s, next)
        else (next.sgetn capacity m).map fun (t, last) => (s ++ t, last) := by
  induction n generalizing this with
  | zero =>
    rw [Nat.zero_add]
    show _ = Option.map _ _
    cases this.sgetn capacity m with
    | none => rfl
    | some read => rfl
  | succ n ih =>
    rw [Nat.add_right_comm, sgetn, sgetn]
    cases this.sbumpc capacity with
    | none => rfl
    | some bumped =>
      rcases bumped with ⟨c, next⟩
      cases c with
      | none =>
        have short : ([] : Bytes).length < n + 1 := Nat.succ_pos n
        simp only [bind_eq_bind, bind_some, if_pos short]
      | some byte =>
        simp only [bind_eq_bind, bind_some, ih]
        cases next.sgetn capacity n with
        | none => rfl
        | some read =>
          rcases read with ⟨s, next'⟩
          simp only [bind_some, length_cons, Nat.succ_lt_succ_iff]
          split
          · rfl
          · cases next'.sgetn capacity m with
            | none => rfl
            | some read' => rfl

theorem read_add (n m : Nat) (this : ZipIStreamBuf z) :
    this.read capacity (n + m) = (this.read capacity n).bind fun (s, next) =>
        if s.length < n then some (s, next)
        else (next.read capacity m).map fun (t, last) => (s ++ t, last) := by
  unfold read
  rw [sgetn_add]
  cases first : this.sgetn capacity n with
  | none => rfl
  | some read =>
    rcases read with ⟨s, next⟩
    have le := sgetn_length_le first
    by_cases short : s.length < n
    · have shorter : s.length < n + m := by omega
      simp only [bind_eq_bind, bind_some, if_pos short, if_pos shorter]
    · simp only [bind_eq_bind, bind_some, if_neg short]
      cases next.sgetn capacity m with
      | none => rfl
      | some read' =>
        rcases read' with ⟨t, last⟩
        have same : (s ++ t).length < n + m ↔ t.length < m := by
          rw [length_append]
          omega
        simp only [map_some, bind_some, same]

theorem readBlocks_eq (ns : List Nat) (this : ZipIStreamBuf z) :
    readBlocks capacity ns this = this.read capacity ns.sum := by
  induction ns generalizing this with
  | nil => rfl
  | cons n ns ih =>
    rw [sum_cons, read_add, readBlocks]
    cases this.read capacity n with
    | none => rfl
    | some read =>
      rcases read with ⟨s, next⟩
      simp only [bind_eq_bind, bind_some, ih]
      split
      · rfl
      · cases next.read capacity ns.sum with
        | none => rfl
        | some read' => rfl

/-! ## The whole stream -/

/-- Reading to the end delivers the data, is at the end of the text, and what
is compared on closing agrees. -/
def ReadsBack (z : Zlib) (capacity : Nat) (ns : List Nat) (file data : Bytes) : Prop :=
  ∃ last closed : ZipIStreamBuf z, readBlocks capacity ns (create file) = some (data, last) ∧
    last.fZipErr = Z_STREAM_END ∧ last.close capacity = some closed ∧
    closed.badbit = false

theorem create_reading {text trailer : Bytes} :
    Reading text trailer (create (gzipHdr ++ text ++ trailer) : ZipIStreamBuf z).emptied.zipinit
      [] [] := by
  have header : (gzipHdr ++ text ++ trailer).take 10 = gzipHdr := by
    rw [append_assoc]
    exact take_left' rfl
  have behind : (gzipHdr ++ text ++ trailer).drop 10 = text ++ trailer := by
    rw [append_assoc]
    exact drop_left' rfl
  have enough : 10 ≤ (gzipHdr ++ text ++ trailer).length := by
    rw [append_assoc, length_append]
    exact Nat.le_add_right 10 _
  have valid : isValid ((gzipHdr ++ text ++ trailer).take 10) = true := by
    rw [header]
    decide
  have begins : (create (gzipHdr ++ text ++ trailer) :
      ZipIStreamBuf z).emptied.zipinit =
        { (create (text ++ trailer) : ZipIStreamBuf z) with
          isInitialized := true
          fCrcData := z.crc32 0 [] } := by
    unfold zipinit emptied create
    simp only [Bool.false_eq_true, if_false, valid, behind, enough]
    rfl
  rw [begins]
  refine ⟨rfl, rfl, .init, nil_prefix, rfl, ?_, rfl, rfl, rfl, rfl⟩
  intro notGood
  cases notGood

theorem readBlocks_all {data : Bytes} {ns : List Nat}
    {this last : ZipIStreamBuf z} (enough : data.length < ns.sum) :
    readBlocks capacity ns this = some (data, last) ↔
      ∃ next, this.sgetn capacity ns.sum = some (data, next) ∧ next.atEnd = last := by
  rw [readBlocks_eq]
  unfold read
  constructor
  · intro reads
    rw [bind_eq_bind] at reads
    rcases bind_eq_some_iff.mp reads with ⟨⟨s, next⟩, gets, same⟩
    dsimp only at same
    cases same
    exact ⟨next, gets, (if_pos enough).symm⟩
  · rintro ⟨next, gets, isLast⟩
    rw [gets, bind_eq_bind, bind_some]
    dsimp only
    rw [if_pos enough, isLast]

/-- All is read back exactly if no refill stops too early. -/
theorem readsBack_iff_fine {data text : Bytes} {ns : List Nat} (contract : z.Contract)
    (positive : 0 < capacity) (enough : data.length < ns.sum) (encodes : z.Encodes data text) :
    ReadsBack z capacity ns (gzipHdr ++ text ++ (ZipOStreamBuf.longBytes 8 (z.crc32 0 data) ++
          ZipOStreamBuf.longBytes 8 (data.length % 2 ^ 64))) data ↔
      RefillsFine z capacity z.inflateInit [] ((gzipHdr ++ text ++
        (ZipOStreamBuf.longBytes 8 (z.crc32 0 data) ++
          ZipOStreamBuf.longBytes 8 (data.length % 2 ^ 64))).drop 10) ∧
        z.crc32 0 data < 2 ^ 31 ∧ data.length % 2 ^ 64 < 2 ^ 31 := by
  obtain ⟨trailer, isTrailer⟩ : ∃ trailer, trailer = ZipOStreamBuf.longBytes 8 (z.crc32 0 data) ++
        ZipOStreamBuf.longBytes 8 (data.length % 2 ^ 64) := ⟨_, rfl⟩
  have behind : trailer ≠ [] := by
    rw [isTrailer]
    exact cons_ne_nil _ _
  rw [← isTrailer]
  obtain ⟨begun, isBegun⟩ : ∃ begun : ZipIStreamBuf z,
      begun = create (gzipHdr ++ text ++ trailer) := ⟨_, rfl⟩
  have reading : Reading text trailer begun.emptied.zipinit [] [] := by
    rw [isBegun]
    exact create_reading
  have unended : begun.fZipErr ≠ Z_STREAM_END := by
    rw [isBegun]
    show Z_OK ≠ Z_STREAM_END
    decide
  have fresh : begun.emptied = begun := by
    rw [isBegun]
    rfl
  have state : begun.emptied.zipinit.fZip = z.inflateInit ∧ begun.emptied.zipinit.avail_in = [] ∧
      begun.emptied.zipinit.fIs = (gzipHdr ++ text ++ trailer).drop 10 := by
    rw [isBegun]
    exact ⟨rfl, rfl, rfl⟩
  rcases state with ⟨isState, isAvail, isFile⟩
  have delivers : RefillsFine z capacity z.inflateInit []
      ((gzipHdr ++ text ++ trailer).drop 10) → ∃ last,
      begun.sgetn capacity ns.sum = some (data, last) ∧ Ended data trailer last := by
    intro fine
    have gets := fine.delivers contract encodes behind positive reading
      isState isAvail isFile unended (nil_append data) enough
    rwa [fresh] at gets
  have close_iff : ∀ last : ZipIStreamBuf z, Ended data trailer last →
      ((∃ closed, last.atEnd.close capacity = some closed ∧ closed.badbit = false) ↔
      z.crc32 0 data < 2 ^ 31 ∧ data.length % 2 ^ 64 < 2 ^ 31) := by
    intro last ended
    rw [isTrailer] at ended
    have atEnd : Ended data _ last.atEnd := { ended with }
    exact atEnd.close_iff contract positive
  unfold ReadsBack
  rw [← isBegun]
  constructor
  · rintro ⟨last, closed, reads, ended, closes, good⟩
    rcases (readBlocks_all enough).mp reads with ⟨next, gets, isLast⟩
    have nextEnded : next.fZipErr = Z_STREAM_END := by
      rw [← isLast] at ended
      exact ended
    have getsEmptied : begun.emptied.sgetn capacity ns.sum = some (data, next) := by
      rw [fresh]
      exact gets
    have fine := fine_of_delivers contract encodes behind positive reading
      unended (nil_append data) enough getsEmptied nextEnded (Nat.lt_succ_self _)
    rw [isState, isAvail, isFile] at fine
    rcases delivers fine with ⟨next', gets', isEnded⟩
    rw [gets] at gets'
    cases gets'
    rw [← isLast] at closes
    exact ⟨fine, (close_iff next isEnded).mp ⟨closed, closes, good⟩⟩
  · rintro ⟨fine, small⟩
    rcases delivers fine with ⟨next, gets, isEnded⟩
    rcases (close_iff next isEnded).mpr small with ⟨closed, closes, good⟩
    exact ⟨next.atEnd, closed,
      (readBlocks_all enough).mpr ⟨next, gets, rfl⟩, isEnded.fZipErr, closes,
      good⟩

private def letterFile (text crc : Bytes) : Bytes :=
  gzipHdr ++ text ++ crc ++ [0, 0, 0, 0] ++ [1, 0, 0, 0, 0, 0, 0, 0]

/-- What a closed stream has written is read back exactly when no answer of zlib
to its blocks is taken for the end of file and the sign bits of the checksum and of the length
are not set. -/
theorem readsBack_iff (z : Zlib) (contract : z.Contract) {capacity : Nat} (positive : 0 < capacity)
    (calls : List ZipCall) (ns : List Nat) (enough : (calls.flatMap ZipCall.data).length < ns.sum) :
    ∃ file, ZipOStreamBuf.produced z capacity calls = some file ∧
      (ReadsBack z capacity ns file (calls.flatMap ZipCall.data) ↔
        RefillsFine z capacity z.inflateInit [] (file.drop 10) ∧
          z.crc32 0 (calls.flatMap ZipCall.data) < 2 ^ 31 ∧
          (calls.flatMap ZipCall.data).length % 2 ^ 64 < 2 ^ 31) := by
  rcases ZipOStreamBuf.produced_eq contract positive calls with ⟨text, encodes, isFile⟩
  rw [append_assoc] at isFile
  exact ⟨_, isFile, readsBack_iff_fine contract positive enough encodes⟩

set_option maxRecDepth 100000 in
theorem readsBack_iff_b :
    ∃ file, ZipOStreamBuf.produced plainZlib 16384 [.write [98], .flush] = some file ∧
      ReadsBack plainZlib 16384 [1, 4096] file [98] := by
  have positive : 0 < 16384 := by decide
  rcases readsBack_iff plainZlib PlainZlib.contract positive
    [.write [98], .flush] [1, 4096] (by decide) with ⟨file, isFile, iff⟩
  refine ⟨file, isFile, iff.mpr ⟨?_, by decide, by decide⟩⟩
  have known : ZipOStreamBuf.produced plainZlib 16384 [.write [98], .flush] =
      some (letterFile [0x4b, 2, 0] [0xf9, 0xef, 0xbe, 0x71]) := rfl
  rw [known] at isFile
  cases isFile
  exact .last rfl (by decide)

set_option maxRecDepth 100000 in
/-- The checksum of the letter `a` has its sign bit set. -/
theorem not_readsBack : ¬ ∀ (z : Zlib) (capacity : Nat) (calls : List ZipCall)
    (ns : List Nat), z.Contract → 0 < capacity → (calls.flatMap ZipCall.data).length < ns.sum →
    ∃ file, ZipOStreamBuf.produced z capacity calls = some file ∧
      ReadsBack z capacity ns file (calls.flatMap ZipCall.data) := by
  intro all
  rcases all plainZlib 16384 [.write [97]] [2] PlainZlib.contract (by decide)
    (by decide) with ⟨file, isFile, last, closed, reads, _, closes, good⟩
  have known : ZipOStreamBuf.produced plainZlib 16384 [.write [97]] =
      some (letterFile [0x4b, 4, 0] [0x43, 0xbe, 0xb7, 0xe8]) := rfl
  rw [known] at isFile
  cases isFile
  cases reads
  cases closes
  cases good

end Coast.ZipIStreamBuf
