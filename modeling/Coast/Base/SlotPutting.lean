import Coast.Base.SlotCleaning

/-!
# What the slot putter puts

`IntOperate` makes the slots of the path that are missing, and the value is put
into the last one.  On the way it changes a variable of its own: what it makes
of a simple value is not seen from the destination.
-/

namespace Coast

open PartialSteps Heap List Option

namespace SlotFinder

def append (st : SlotFinder) (access : Access) (any : Handle) : Heap :=
  match (access st.heap st.dest).2.2 with
  | some ref => (access st.heap st.dest).1.refAppend ref any
  | none =>
    match st.heap.doAt st.dest (st.heap.getSize st.dest) with
    | (heap, _, some ref) => heap.put ref any
    | (heap, _, none) => heap

end SlotFinder

/-- `Operate(source, dest, destSlotname, append, delim, indexdelim)`: the heap
and what `dest` holds then. -/
def SlotPutter.operate (heap : Heap) (source dest : Handle) (destSlotname : Bytes)
    (append : Bool) (delim indexdelim : Byte) : Heap × Handle :=
  let (heap, dest) := heap.expand dest
  let (found, st) := SlotFinder.intOperate delim indexdelim (destSlotname.length + 1)
    ⟨heap, dest, destSlotname, -1⟩
  let access := if st.destSlotname ≠ [] then SlotFinder.atKey st.destSlotname
    else SlotFinder.atIndex st.destIdx
  if found = false then (st.heap, dest)
  else if append then (st.append access source, dest)
  else ((st.assign access source).heap, dest)

namespace SlotStep

def made (slots : Slots Handle) : SlotStep → Slots Handle × Nat
  | key k =>
    match slots.findIndex k with
    | some i => (slots, i)
    | none => (slots ++ [(cstr k, none)], slots.length)
  | index i => (slots.at_ i id, i)

def put (slots : Slots Handle) (step : SlotStep) (any : Handle) : Slots Handle :=
  (step.made slots).1.setIndex (step.made slots).2 any

def Whole : SlotStep → Prop
  | key k => k ≠ [] ∧ NulFree k
  | index _ => True

variable {slots slots' : Slots Handle} {step : SlotStep} {i : Nat}

theorem made_of_known (known : step.indexIn slots = some i) : step.made slots = (slots, i) := by
  have inside := indexIn_lt known
  cases step with
  | key k =>
    have known' : slots.findIndex k = some i := known
    rw [made, known']
  | index n =>
    rw [indexIn] at known
    split at known
    · cases known
      rw [made, Slots.at_of_lt inside]
    · cases known

theorem indexIn_mono (names : slots.map Prod.fst <+: slots'.map Prod.fst)
    (known : step.indexIn slots = some i) : step.indexIn slots' = some i := by
  rcases names with ⟨more, names⟩
  cases step with
  | key k =>
    rw [indexIn, Slots.findIndex_names] at known ⊢
    split at known
    · cases known
    · rw [if_neg (by assumption), ← names, findIdx?_append, known]
      rfl
  | index n =>
    have longer := congrArg List.length names
    rw [length_append, length_map, length_map] at longer
    rw [indexIn] at known ⊢
    split at known
    · rw [if_pos (by omega)]
      exact known
    · cases known

theorem made_eq (step : SlotStep) (slots : Slots Handle) :
    ∃ more, (step.made slots).1 = slots ++ more ∧ ∀ slot ∈ more, slot.2 = none := by
  cases step with
  | key k =>
    rw [made]
    split
    · exact ⟨[], (append_nil slots).symm, nofun⟩
    · exact ⟨_, rfl, fun slot member => mem_singleton.mp member ▸ rfl⟩
  | index n =>
    refine ⟨List.replicate (n + 1 - slots.length) AnyKeyAssoc.empty, ?_, ?_⟩
    · rw [made, Slots.at_, Slots.setValue_id]
    · intro slot member
      rw [eq_of_mem_replicate member]
      rfl

theorem indexIn_made (whole : step.Whole) (slots : Slots Handle) :
    step.indexIn (step.made slots).1 = some (step.made slots).2 := by
  cases step with
  | key k =>
    cases known : slots.findIndex k with
    | some i =>
      rw [made, known]
      exact known
    | none =>
      have ends := cstr_of_nulFree whole.2
      rw [made, known, indexIn]
      dsimp only
      rw [Slots.findIndex_names, ends, if_neg whole.1] at known ⊢
      rw [map_append, findIdx?_append, known]
      simp
  | index n =>
    rw [made, indexIn, Slots.at_, Slots.setValue_id, if_pos]
    rw [length_append, length_replicate]
    omega

theorem made_behind (missing : step.indexIn slots = none) : slots.length ≤ (step.made slots).2 := by
  cases step with
  | key k =>
    have absent : slots.findIndex k = none := missing
    rw [made, absent]
  | index n =>
    rw [indexIn] at missing
    split at missing
    · cases missing
    · exact not_lt.mp (by assumption)

theorem names_setIndex (slots : Slots Handle) (i : Nat) (any : Handle) :
    (slots.setIndex i any).map Prod.fst = slots.map Prod.fst := by
  apply ext_getElem?
  intro j
  rw [Slots.setIndex, getElem?_map, getElem?_map, getElem?_modify]
  cases slots[j]? with
  | none => rfl
  | some slot =>
    by_cases same : i = j
    · simp [same]
    · simp [same]

theorem names_put (slots : Slots Handle) (step : SlotStep) (any : Handle) :
    slots.map Prod.fst <+: (step.put slots any).map Prod.fst := by
  rcases step.made_eq slots with ⟨more, same, -⟩
  rw [put, names_setIndex, same, map_append]
  exact prefix_append ..

variable (whole : step.Whole)
include whole

theorem indexIn_put (slots : Slots Handle) (any : Handle) :
    step.indexIn (step.put slots any) = some (step.made slots).2 ∧
      slot (step.put slots any) (step.made slots).2 = any := by
  have known := indexIn_made whole slots
  refine ⟨indexIn_mono ?_ known, slot_setIndex (indexIn_lt known) any⟩
  simp only [put, names_setIndex, prefix_rfl]

theorem put_other (any : Handle) {j : Nat} (inside : j < slots.length)
    (other : step.indexIn slots ≠ some j) : (step.put slots any)[j]? = slots[j]? := by
  rcases step.made_eq slots with ⟨more, same, -⟩
  have apart : (step.made slots).2 ≠ j := by
    rintro rfl
    apply other
    have known := indexIn_made whole slots
    cases here : step.indexIn slots with
    | some i => rw [made_of_known here]
    | none => exact absurd inside (not_lt.mpr (made_behind here))
  rw [put, Slots.setIndex, getElem?_modify_ne _ _ apart, same, getElem?_append_left inside]

theorem slot_made
    (missing : ∀ i, step.indexIn slots = some i → slot slots i = none) :
    slot (step.made slots).1 (step.made slots).2 = none := by
  have known := indexIn_made whole slots
  cases here : step.indexIn slots with
  | some i =>
    rw [made_of_known here]
    exact missing i here
  | none =>
    rcases step.made_eq slots with ⟨more, same, nulls⟩
    rw [slot, same, getElem?_append_right (made_behind here)]
    cases there : more[(step.made slots).2 - slots.length]? with
    | none => rfl
    | some slot => exact nulls slot (mem_of_getElem? there)

end SlotStep

variable {delim indexdelim : Byte}

theorem PathToken.Proper.whole {token : PathToken} (proper : token.Proper delim indexdelim) :
    token.step.Whole := by
  cases token with
  | key name => exact ⟨proper.1, proper.2.1⟩
  | index digits => trivial

namespace SlotFinder

section

variable {heap : Heap} {place : Nat} {slots : Slots Handle}

theorem access_made (found : heap[place]? = some (AnyImpl.array slots)) (step : SlotStep) :
    stepAccess step heap (some place) = (heap.update place fun _ => (step.made slots).1, some place,
        some ⟨place, (step.made slots).2⟩) := by
  cases step with
  | key k =>
    rw [stepAccess, atKey, doAtKey_array found, SlotStep.made]
    cases slots.findIndex k with
    | some i => rw [@update_self _ _ _ found (fun _ => slots) rfl]
    | none =>
      dsimp only
      rw [@update_congr _ _ _ found _ (fun _ => slots ++ [(cstr k, none)]) rfl]
  | index i =>
    rw [stepAccess, atIndex, doAt_array found, SlotStep.made]
    dsimp only
    rw [@update_congr _ _ _ found _ (fun _ => slots.at_ i id) rfl]

variable (st : SlotFinder) {step : SlotStep}

theorem assign_array (here : st.dest = some place)
    (found : st.heap[place]? = some (AnyImpl.array slots)) (any : Handle) :
    st.assign (stepAccess step) any =
      { st with heap := st.heap.update place fun _ => step.put slots any } := by
  rw [assign, touch, here, access_made found]
  dsimp only
  rw [put, update_update, ← here]
  rfl

theorem assign_descend (whole : step.Whole) (here : st.dest = some place)
    (found : st.heap[place]? = some (AnyImpl.array slots)) (any : Handle) :
    (st.assign (stepAccess step) any).descend (stepAccess step) =
      { st with
        heap := st.heap.update place fun _ => step.put slots any
        dest := any } := by
  have known := SlotStep.indexIn_put whole slots any
  have there := update_here (fun _ => step.put slots any) found
  rw [assign_array st here found, descend, touch, value, here, access_array there known.1]
  dsimp only
  rw [Heap.get, arrayAt_of there, known.2]

theorem makeArray_descend (whole : step.Whole) (here : st.dest = some place)
    (found : st.heap[place]? = some (AnyImpl.array slots)) :
    (st.makeArray (stepAccess step)).descend (stepAccess step) =
      { st with
        heap := (st.heap.update place fun _ => step.put slots (some st.heap.length)) ++ [.array []]
        dest := some st.heap.length } := by
  have inside := (List.getElem?_eq_some_iff.mp found).choose
  rw [← update_append _ _ inside]
  exact assign_descend { st with heap := st.heap ++ [AnyImpl.array []] } whole here
    ((getElem?_append_left inside).trans found) _

theorem enter_missing {token : PathToken} (proper : token.Proper delim indexdelim)
    (bounded : token.Bounded) (here : st.dest = some place)
    (found : st.heap[place]? = some (AnyImpl.array slots))
    (missing : ∀ i, token.step.indexIn slots = some i → slot slots i = none) (next : PathToken) :
    st.enter token next =
      { st with
        heap := (st.heap.update place fun _ => token.step.put slots (some st.heap.length)) ++
          [.array []]
        dest := some st.heap.length } := by
  have whole := proper.whole
  have null : st.value (stepAccess token.step) = none := by
    rw [value, here, access_made found]
    dsimp only
    rw [Heap.get, arrayAt_of (update_here _ found), SlotStep.slot_made whole missing]
  have there := update_here (fun _ => (token.step.made slots).1) found
  have touched : st.touch (stepAccess token.step) =
      { st with heap := st.heap.update place fun _ => (token.step.made slots).1 } := by
    rw [touch, here, access_made found, ← here]
  have again : token.step.put (token.step.made slots).1 = token.step.put slots := by
    funext any
    rw [SlotStep.put, SlotStep.made_of_known (SlotStep.indexIn_made whole slots)]
    rfl
  have into' : st.into (stepAccess token.step) =
    { st with
        heap := (st.heap.update place fun _ => token.step.put slots (some st.heap.length)) ++
          [.array []]
        dest := some st.heap.length } := by
    rw [into, if_pos null, touched]
    refine (makeArray_descend ⟨st.heap.update place fun _ => (token.step.made slots).1,
      st.dest, st.destSlotname, st.destIdx⟩ whole here there).trans ?_
    rw [update_update, length_update]
    simp only [again]
    rfl
  cases token with
  | index digits =>
    rw [enter, number_eq proper bounded]
    exact into'
  | key name =>
    cases next with
    | index digits => exact into'
    | key name' =>
      have null' : st.value (atKey name) = none := null
      rw [enter, if_pos (Or.inr null')]
      exact makeArray_descend st whole here found

end

end SlotFinder

/-- The slots of an array stay, with their names, but for some of them. -/
def Grown (Changes : Nat → Prop) : AnyImpl → AnyImpl → Prop
  | .array slots, .array slots' =>
    slots.map Prod.fst <+: slots'.map Prod.fst ∧
      ∀ i < slots.length, ¬Changes i → slots'[i]? = slots[i]?
  | impl, impl' => impl' = impl

def KeptApart (Changes : Nat → Nat → Prop) (heap heap' : Heap) : Prop :=
  ∀ place impl, heap[place]? = some impl →
    ∃ impl', heap'[place]? = some impl' ∧ Grown (Changes place) impl impl'

variable {Changes Changes' : Nat → Nat → Prop} {heap heap' : Heap}

theorem Grown.refl (Changes : Nat → Prop) (impl : AnyImpl) : Grown Changes impl impl := by
  cases impl with
  | array slots => exact ⟨prefix_rfl, fun _ _ _ => rfl⟩
  | _ => rfl

theorem keptApart_begins (begins : heap <+: heap') : KeptApart Changes heap heap' := by
  rcases begins with ⟨more, rfl⟩
  intro place impl found
  have inside := (List.getElem?_eq_some_iff.mp found).choose
  exact ⟨impl, (getElem?_append_left inside).trans found, .refl _ impl⟩

theorem KeptApart.trans {heap'' : Heap} (first : KeptApart Changes heap heap')
    (second : KeptApart Changes' heap' heap'')
    (all : ∀ place i, Changes' place i → Changes place i) :
    KeptApart Changes heap heap'' := by
  intro place impl found
  rcases first place impl found with ⟨impl', found', grown⟩
  rcases second place impl' found' with ⟨impl'', found'', grown'⟩
  refine ⟨impl'', found'', ?_⟩
  cases impl with
  | array slots =>
    cases impl' with
    | array slots' =>
      cases impl'' with
      | array slots'' =>
        refine ⟨grown.1.trans grown'.1, fun i inside free => ?_⟩
        have longer := grown.1.length_le
        rw [length_map, length_map] at longer
        rw [grown'.2 i (by omega) fun changes => free (all place i changes), grown.2 i inside free]
      | _ => cases grown'
    | _ => cases grown
  | _ =>
    cases grown
    exact grown'

theorem KeptApart.mono (kept : KeptApart Changes' heap heap')
    (all : ∀ place i, Changes' place i → Changes place i) : KeptApart Changes heap heap' :=
  (keptApart_begins prefix_rfl).trans kept all

variable {slots : Slots Handle} {step : SlotStep}

theorem keptApart_put {place : Nat}
    (whole : step.Whole) (found : heap[place]? = some (AnyImpl.array slots)) (any : Handle) :
    KeptApart (fun q i => q = place ∧ step.indexIn slots = some i) heap
      (heap.update place fun _ => step.put slots any) := by
  intro other impl found'
  by_cases same : other = place
  · subst same
    rw [found] at found'
    cases found'
    refine ⟨_, update_here _ found, SlotStep.names_put slots step any, ?_⟩
    exact fun i inside free => SlotStep.put_other whole any inside fun known => free ⟨rfl, known⟩
  · exact ⟨impl, (update_elsewhere _ _ same).trans found', .refl _ impl⟩

theorem KeptApart.found (kept : KeptApart Changes heap heap') {place i : Nat}
    (array : heap[place]? = some (AnyImpl.array slots))
    (known : step.indexIn slots = some i) (free : ¬Changes place i) :
    findOrAt heap' (some place) step = some (slot slots i) := by
  rcases kept place _ array with ⟨impl', found', grown⟩
  cases impl' with
  | array slots' =>
    rw [SlotFinder.findOrAt_array found', SlotStep.indexIn_mono grown.1 known,
      map_some, slot, grown.2 i (SlotStep.indexIn_lt known) free, slot]
  | _ => cases grown

/-- The slot with an index of the array at a place is on the path. -/
def OnPath (heap : Heap) (place i : Nat) : Handle → List SlotStep → Prop
  | _, [] => False
  | any, step :: steps =>
    (any = some place ∧ step.indexIn (heap.arrayAt place) = some i) ∨
      ∃ c, findOrAt heap any step = some c ∧ c ≠ none ∧ OnPath heap place i c steps

/-- The slot with an index of the array at a place is the one that the path is
put into: the last one, or the first that holds nothing. -/
def PutInto (heap : Heap) (place i : Nat) : Handle → List SlotStep → Prop
  | _, [] => False
  | any, step :: steps =>
    (any = some place ∧ step.indexIn (heap.arrayAt place) = some i ∧
      (steps = [] ∨ findOrAt heap any step = some none)) ∨
    (steps ≠ [] ∧
      ∃ c, findOrAt heap any step = some c ∧ c ≠ none ∧ PutInto heap place i c steps)

/-- The slot that is put into is not on the way to itself. -/
def Once (heap : Heap) : Handle → List SlotStep → Prop
  | _, [] => True
  | any, step :: steps => ∀ c, findOrAt heap any step = some c → c ≠ none →
      Once heap c steps ∧ ∀ place i, any = some place →
        step.indexIn (heap.arrayAt place) = some i → ¬PutInto heap place i c steps

theorem PutInto.onPath {steps : List SlotStep} {any : Handle} {place i : Nat}
    (put : PutInto heap place i any steps) : OnPath heap place i any steps := by
  induction steps generalizing any with
  | nil => exact put
  | cons step steps ih =>
    rcases put with ⟨here, index, -⟩ | ⟨-, c, known, notNull, behind⟩
    · exact Or.inl ⟨here, index⟩
    · exact Or.inr ⟨c, known, notNull, ih behind⟩

def Open (heap : Heap) : Handle → List SlotStep → Prop
  | _, [] => True
  | any, step :: steps => heap.isArray any = true ∧
      ∀ c, findOrAt heap any step = some c → c ≠ none → Open heap c steps

def Readable (source : Handle) (steps : List SlotStep) : Prop :=
  source ≠ none ∨ ∃ name, steps.getLast? = some (.key name)

variable {any : Handle}

theorem defined_of_found {c : Handle}
    (found : findOrAt heap any step = some c) (readable : Readable c [step]) :
    findOrAtDefined heap any step = some c := by
  cases step with
  | key name => exact found
  | index i =>
    have notNull : c ≠ none := readable.resolve_right (by simp)
    rw [findOrAtDefined, found, filter_some, if_pos]
    exact decide_eq_true notNull

theorem follow_found {c : Handle}
    (found : findOrAt heap any step = some c) (notNull : c ≠ none) (steps : List SlotStep) :
    follow (findOrAtDefined heap) any (step :: steps) = follow (findOrAtDefined heap) c steps := by
  rw [follow, defined_of_found found (Or.inl notNull)]
  rfl

theorem Readable.tail {source : Handle} {next : SlotStep} {steps : List SlotStep}
    (readable : Readable source (step :: next :: steps)) : Readable source (next :: steps) := by
  rwa [Readable, getLast?_cons_cons] at readable

theorem findOrAt_empty {n : Nat} (found : heap[n]? = some (AnyImpl.array []))
    (step : SlotStep) : findOrAt heap (some n) step = none := by
  rw [SlotFinder.findOrAt_array found]
  cases step with
  | key name =>
    rw [SlotStep.indexIn, Slots.findIndex_names, map_nil, findIdx?_nil, ite_self]
    rfl
  | index i => rfl

theorem path_empty {n : Nat} (found : heap[n]? = some (AnyImpl.array [])) (steps : List SlotStep) :
    Open heap (some n) steps ∧ Once heap (some n) steps ∧
      ∀ place i, ¬OnPath heap place i (some n) steps := by
  cases steps with
  | nil => exact ⟨trivial, trivial, fun _ _ => id⟩
  | cons step steps =>
    have nowhere := findOrAt_empty found step
    refine ⟨⟨isArray_array found, ?_⟩, ?_, ?_⟩
    · intro c known
      rw [nowhere] at known
      cases known
    · intro c known
      rw [nowhere] at known
      cases known
    · rintro place i (⟨same, index⟩ | ⟨c, known, -⟩)
      · cases same
        rw [arrayAt_of found] at index
        exact absurd (SlotStep.indexIn_lt index) (Nat.not_lt_zero i)
      · rw [nowhere] at known
        cases known

namespace SlotFinder

def written (source : Handle) : List PathToken → SlotFinder → Heap
  | token :: next :: tokens, st => written source (next :: tokens) (st.enter token next)
  | [last], st => (st.assign (stepAccess last.step) source).heap
  | [], st => st.heap

variable (source : Handle)

theorem written_eq {tokens : List PathToken} {last : PathToken}
    (isLast : tokens.getLast? = some last) (st : SlotFinder) :
    ((enterAll tokens st).assign (stepAccess last.step) source).heap =
      written source tokens st := by
  induction tokens generalizing st with
  | nil => cases isLast
  | cons token tokens ih =>
    cases tokens with
    | nil =>
      cases isLast
      rfl
    | cons next tokens =>
      rw [getLast?_cons_cons] at isLast
      exact ih isLast (st.enter token next)

/-- The value is found on the path, and nothing but the slot that is put into
changes. -/
def Succeeds (tokens : List PathToken) (st : SlotFinder) : Prop :=
  KeptApart (fun place i => PutInto st.heap place i st.dest (tokens.map PathToken.step))
      st.heap (written source tokens st) ∧
    (Readable source (tokens.map PathToken.step) →
      follow (findOrAtDefined (written source tokens st)) st.dest
        (tokens.map PathToken.step) = some source)

variable {source} {token next : PathToken} {tokens : List PathToken} {st : SlotFinder}
  {place : Nat} {slots : Slots Handle}

theorem putInto_first (here : st.dest = some place)
    (found : st.heap[place]? = some (AnyImpl.array slots)) {steps : List SlotStep}
    (missing : steps = [] ∨ ∀ i, token.step.indexIn slots = some i → slot slots i = none)
    (q i : Nat) (first : q = place ∧ token.step.indexIn slots = some i) :
    PutInto st.heap q i st.dest (token.step :: steps) := by
  rcases first with ⟨rfl, known⟩
  refine Or.inl ⟨here, by rwa [arrayAt_of found], missing.imp_right fun null => ?_⟩
  rw [here, findOrAt_array found, known, map_some, null i known]

section

variable (proper : token.Proper delim indexdelim)
include proper

theorem succeeds_last (here : st.dest = some place)
    (found : st.heap[place]? = some (AnyImpl.array slots)) : Succeeds source [token] st := by
  have result : written source [token] st =
      st.heap.update place fun _ => token.step.put slots source :=
    congrArg SlotFinder.heap (assign_array st here found source)
  have known := SlotStep.indexIn_put proper.whole slots source
  have there := update_here (fun _ => token.step.put slots source) found
  rw [Succeeds, result]
  refine ⟨(keptApart_put proper.whole found source).mono
    (putInto_first here found (Or.inl rfl)), ?_⟩
  intro readable
  rw [here, map_singleton, follow, defined_of_found _ readable]
  · rfl
  · rw [findOrAt_array there, known.1, map_some, known.2]

theorem succeeds_there (bounded : token.Bounded)
    (here : st.dest = some place) (found : st.heap[place]? = some (AnyImpl.array slots))
    {i : Nat} (index : token.step.indexIn slots = some i) (notNull : slot slots i ≠ none)
    (later : Succeeds source (next :: tokens) { st with dest := slot slots i })
    (once : ¬PutInto st.heap place i (slot slots i) ((next :: tokens).map PathToken.step)) :
    Succeeds source (token :: next :: tokens) st := by
  have known : findOrAt st.heap st.dest token.step = some (slot slots i) := by
    rw [here, findOrAt_array found, index]
    rfl
  rw [Succeeds, written, enter_found st proper bounded known notNull next]
  refine ⟨later.1.mono fun q i among =>
    Or.inr ⟨cons_ne_nil _ _, _, known, notNull, among⟩, ?_⟩
  intro readable
  rw [here]
  exact (follow_found (later.1.found found index once) notNull _).trans (later.2 readable.tail)

theorem succeeds_missing (bounded : token.Bounded)
    (here : st.dest = some place) (found : st.heap[place]? = some (AnyImpl.array slots))
    (missing : ∀ i, token.step.indexIn slots = some i → slot slots i = none)
    (later : ∀ st : SlotFinder, ∀ n, st.dest = some n →
      st.heap[n]? = some (AnyImpl.array []) → Succeeds source (next :: tokens) st) :
    Succeeds source (token :: next :: tokens) st := by
  have entered := enter_missing st proper bounded here found missing next
  have dest : (st.enter token next).dest = some st.heap.length := by rw [entered]
  have whole := proper.whole
  have fresh : (st.enter token next).heap[st.heap.length]? = some (AnyImpl.array []) := by
    rw [entered]
    refine (getElem?_append_right (by rw [length_update])).trans ?_
    rw [length_update, Nat.sub_self]
    rfl
  have put' : (st.enter token next).heap[place]? =
      some (AnyImpl.array (token.step.put slots (some st.heap.length))) := by
    rw [entered]
    refine (getElem?_append_left ?_).trans (update_here _ found)
    rw [length_update]
    exact (List.getElem?_eq_some_iff.mp found).choose
  have begun : KeptApart (fun q i => q = place ∧ token.step.indexIn slots = some i)
      st.heap (st.enter token next).heap := by
    rw [entered]
    exact (keptApart_put whole found _).trans
      (@keptApart_begins (fun _ _ => False) _ _ (prefix_append ..)) fun _ _ => False.elim
  have behind := later _ _ dest fresh
  have untouched := (path_empty fresh ((next :: tokens).map PathToken.step)).2.2
  rw [← dest] at untouched
  have known := SlotStep.indexIn_put whole slots (some st.heap.length)
  have kept := behind.1.found put' known.1 fun put => untouched _ _ put.onPath
  rw [known.2] at kept
  rw [Succeeds, written]
  refine ⟨(begun.mono (putInto_first here found (Or.inr missing))).trans behind.1
    fun q i among => absurd among.onPath (untouched q i), fun readable => ?_⟩
  rw [here]
  refine (follow_found kept nofun _).trans ?_
  rw [← dest]
  exact behind.2 readable.tail

end

theorem succeeds_open (some' : tokens ≠ [])
    (proper : ∀ token ∈ tokens, token.Proper delim indexdelim)
    (bounded : ∀ token ∈ tokens, token.Bounded) (st : SlotFinder)
    (open' : Open st.heap st.dest (tokens.map PathToken.step))
    (once : Once st.heap st.dest (tokens.map PathToken.step)) :
    Succeeds source tokens st := by
  induction tokens generalizing st with
  | nil => exact absurd rfl some'
  | cons token tokens ih =>
    have properHere := proper token mem_cons_self
    have boundedHere := bounded token mem_cons_self
    rcases isArray_iff.mp open'.1 with ⟨place, slots, here, found⟩
    cases tokens with
    | nil => exact succeeds_last properHere here found
    | cons next tokens =>
      have later := ih (cons_ne_nil next tokens) (forall_mem_cons.mp proper).2
        (forall_mem_cons.mp bounded).2
      by_cases there : ∃ i, token.step.indexIn slots = some i ∧ slot slots i ≠ none
      · rcases there with ⟨i, index, notNull⟩
        have known : findOrAt st.heap st.dest token.step = some (slot slots i) := by
          rw [here, findOrAt_array found, index]
          rfl
        have behind := once _ known notNull
        exact succeeds_there properHere boundedHere here found index notNull
          (later { st with dest := slot slots i } (open'.2 _ known notNull) behind.1)
          (behind.2 place i here (by rwa [arrayAt_of found]))
      · refine succeeds_missing properHere boundedHere here found ?_ ?_
        · intro i index
          by_contra notNull
          exact there ⟨i, index, notNull⟩
        · intro st n dest fresh
          have empty := path_empty fresh ((next :: tokens).map PathToken.step)
          rw [← dest] at empty
          exact later st empty.1 empty.2.1

end SlotFinder

/-! ## A simple value in the way -/

def Contained (heap : Heap) (any : Handle) : Prop :=
  (∀ place, any = some place → place < heap.length) ∧
    ∀ impl ∈ heap, ∀ held ∈ impl.handles, ∀ place, held = some place → place < heap.length

theorem Contained.slot (contained : Contained heap any) {place : Nat}
    (found : heap[place]? = some (AnyImpl.array slots)) (i : Nat) :
    Contained heap (slot slots i) := by
  refine ⟨?_, contained.2⟩
  refine @slot_of_mem slots (fun held => ∀ place, held = some place → place < heap.length)
    nofun (fun slot member => ?_) i
  exact contained.2 _ (mem_of_getElem? found) slot.2 (mem_map_of_mem member)

theorem KeptApart.impl_leaf (kept : KeptApart Changes heap heap')
    (known : ∀ place, any = some place → place < heap.length)
    (leaf : heap.isArray any = false) : heap'.impl any = heap.impl any := by
  cases any with
  | none => rfl
  | some place =>
    obtain ⟨old, held⟩ : ∃ old, heap.impl (some place) = some old :=
      ⟨_, getElem?_eq_getElem (known place rfl)⟩
    rcases kept place old held with ⟨new, found, grown⟩
    rw [isArray, held] at leaf
    rw [held]
    refine Eq.trans found ?_
    cases old with
    | array slots => cases leaf
    | _ => exact congrArg some grown

theorem findOrAt_none (step : SlotStep) : findOrAt heap none step = none := by
  cases step with
  | key name => rfl
  | index i => rfl

theorem findOrAt_congr (same : heap'.impl any = heap.impl any) :
    findOrAt heap' any = findOrAt heap any := by
  have size : heap'.getSize any = heap.getSize any := by rw [getSize, getSize, same]
  have held : ∀ i, AnythingLookup.doGetAt heap' any i = AnythingLookup.doGetAt heap any i :=
    fun i => by rw [AnythingLookup.doGetAt, AnythingLookup.doGetAt, same]
  funext step
  cases step with
  | key name => simp only [findOrAt, Heap.findIndex, held, same]
  | index i => rw [findOrAt, findOrAt, size, held]

theorem length_slots (heap : Heap) (any : Handle) : (heap.slots any).length = heap.getSize any := by
  rw [slots, getSize]
  cases heap.impl any with
  | none => rfl
  | some impl => cases impl <;> rfl

theorem expand_leaf (leaf : heap.isArray any = false) :
    heap.expand any = (heap ++ [AnyImpl.array (heap.slots any)], some heap.length) := by
  rw [expand, leaf, if_neg Bool.false_ne_true]

namespace SlotFinder

variable {source : Handle} {token next : PathToken} {tokens : List PathToken} {st : SlotFinder}

theorem access_leaf_missing {any : Handle} {step : SlotStep}
    (known : ∀ place, any = some place → place < heap.length) (leaf : heap.isArray any = false)
    (whole : step.Whole) (missing : findOrAt heap any step = none) :
    step.indexIn (heap.slots any) = none ∧ stepAccess step heap any =
        stepAccess step (heap ++ [AnyImpl.array (heap.slots any)]) (some heap.length) := by
  have expanded := expand_leaf leaf
  have again := expand_array (expand_isArray heap any)
  have found : (heap ++ [AnyImpl.array (heap.slots any)])[heap.length]? =
      some (AnyImpl.array (heap.slots any)) := getElem?_concat_length
  rw [expanded] at again
  cases step with
  | key k =>
    have ends := cstr_of_nulFree whole.2
    have unknown : heap.findIndex any k 0 0 = none := map_eq_none_iff.mp missing
    have index : (heap.slots any).findIndex k = none := by
      rw [Slots.findIndex_names, ends, if_neg whole.1, slots]
      rw [isArray] at leaf
      cases here : heap.impl any with
      | none => rfl
      | some impl =>
        rw [here] at leaf
        cases impl with
        | array slots => cases leaf
        | _ => simp [Ne.symm whole.1]
    refine ⟨index, ?_⟩
    change heap.doAtKey any k =
      Heap.doAtKey (heap ++ [AnyImpl.array (heap.slots any)]) (some heap.length) k
    unfold doAtKey
    rw [ends, if_neg whole.1, if_neg whole.1, unknown, findIndex_array found, index]
    dsimp only
    rw [expanded, again]
  | index i =>
    have outside : ¬i < heap.getSize any := by
      rw [findOrAt] at missing
      intro inside
      rw [if_pos inside] at missing
      cases missing
    refine ⟨by rw [SlotStep.indexIn, length_slots, if_neg outside], ?_⟩
    have behind : 0 < (i : Int) ∨ any = none := by
      cases any with
      | none => exact Or.inr rfl
      | some place =>
        obtain ⟨impl, held⟩ : ∃ impl, heap.impl (some place) = some impl :=
          ⟨_, getElem?_eq_getElem (known place rfl)⟩
        rw [isArray, held] at leaf
        rw [getSize, held] at outside
        cases impl with
        | array slots => cases leaf
        | _ =>
          have behind : ¬i < 1 := outside
          exact Or.inl (by omega)
    change heap.doAt any i =
      Heap.doAt (heap ++ [AnyImpl.array (heap.slots any)]) (some heap.length) i
    rw [doAt_array found, doAt, if_pos behind, expanded, doGetAt, if_pos (isArray_array found)]
    rfl

def expanded (st : SlotFinder) : SlotFinder :=
  { st with
    heap := st.heap ++ [AnyImpl.array (st.heap.slots st.dest)]
    dest := some st.heap.length }

theorem found_expanded (st : SlotFinder) :
    st.expanded.heap[st.heap.length]? = some (AnyImpl.array (st.heap.slots st.dest)) :=
  getElem?_concat_length

theorem assign_expanded {access : Access}
    (same : access st.heap st.dest = access st.expanded.heap st.expanded.dest)
    (any : Handle) : st.assign access any = st.expanded.assign access any := by
  rw [assign, assign, touch, touch, same]
  rfl

theorem into_expanded {access : Access}
    (same : access st.heap st.dest = access st.expanded.heap st.expanded.dest) :
    st.into access = st.expanded.into access := by
  rw [into, into, touch, touch, value, value, same]
  rfl

theorem begins_expanded (st : SlotFinder) (write : Slots Handle → Slots Handle)
    (more : Heap) : st.heap <+: st.expanded.heap.update st.heap.length write ++ more := by
  rw [expanded, update_new, append_assoc]
  exact prefix_append ..

theorem assign_leaf {st : SlotFinder} {step : SlotStep}
    (known : ∀ place, st.dest = some place → place < st.heap.length)
    (leaf : st.heap.isArray st.dest = false) (whole : step.Whole)
    (missing : findOrAt st.heap st.dest step = none) (any : Handle) :
    ∃ slots, (st.assign (stepAccess step) any).descend (stepAccess step) =
      { st with heap := st.heap ++ [.array slots], dest := any } := by
  rw [assign_expanded (access_leaf_missing known leaf whole missing).2,
    assign_descend _ whole rfl (found_expanded st)]
  refine ⟨step.put (st.heap.slots st.dest) any, ?_⟩
  rw [expanded, update_new]

theorem makeArray_leaf {step : SlotStep}
    (known : ∀ place, st.dest = some place → place < st.heap.length)
    (leaf : st.heap.isArray st.dest = false) (whole : step.Whole)
    (missing : findOrAt st.heap st.dest step = none) :
    ∃ slots, (st.makeArray (stepAccess step)).descend (stepAccess step) =
      { st with
        heap := st.heap ++ [.array []] ++ [.array slots]
        dest := some st.heap.length } := by
  have same : Heap.impl (st.heap ++ [AnyImpl.array []]) st.dest = st.heap.impl st.dest := by
    cases here : st.dest with
    | none => rfl
    | some place => exact getElem?_append_left (known place here)
  refine @assign_leaf { st with heap := st.heap ++ [AnyImpl.array []] } step ?_ ?_ whole ?_ _
  · intro place here
    exact lt_of_lt_of_le (known place here) (prefix_append ..).length_le
  · rw [isArray, same, ← isArray, leaf]
  · rw [findOrAt_congr same, missing]

theorem enter_leaf (proper : token.Proper delim indexdelim) (bounded : token.Bounded)
    (known : ∀ place, st.dest = some place → place < st.heap.length)
    (leaf : st.heap.isArray st.dest = false)
    (missing : findOrAt st.heap st.dest token.step = none) (next : PathToken) :
    ∃ n, (st.enter token next).dest = some n ∧
      (st.enter token next).heap[n]? = some (AnyImpl.array []) ∧
      st.heap <+: (st.enter token next).heap := by
  have whole := proper.whole
  have accessed := access_leaf_missing known leaf whole missing
  have same : stepAccess token.step st.heap st.dest =
      stepAccess token.step st.expanded.heap st.expanded.dest := accessed.2
  suffices entered : st.enter token next = st.expanded.enter token next ∨
      ∃ slots, st.enter token next =
        { st with
          heap := st.heap ++ [.array []] ++ [.array slots]
          dest := some st.heap.length } by
    rcases entered with entered | ⟨slots, entered⟩
    · rw [entered, enter_missing st.expanded proper bounded rfl (found_expanded st)
        (fun i index => by rw [accessed.1] at index; cases index) next]
      refine ⟨_, rfl, ?_, begins_expanded st _ _⟩
      refine (getElem?_append_right (by rw [length_update])).trans ?_
      rw [length_update, Nat.sub_self]
      rfl
    · rw [entered, append_assoc]
      refine ⟨_, rfl, ?_, prefix_append ..⟩
      rw [getElem?_append_right le_rfl, Nat.sub_self]
      rfl
  cases token with
  | index digits =>
    refine Or.inl ?_
    rw [enter, enter, number_eq proper bounded]
    exact into_expanded same
  | key name =>
    cases next with
    | index digits => exact Or.inl (into_expanded same)
    | key name' =>
      have unknown : st.heap.findIndex st.dest name 0 0 = none := map_eq_none_iff.mp missing
      rw [enter, if_pos (Or.inl unknown)]
      exact Or.inr (makeArray_leaf known leaf whole missing)

theorem written_leaf (proper : ∀ token ∈ tokens, token.Proper delim indexdelim)
    (bounded : ∀ token ∈ tokens, token.Bounded)
    (known : ∀ place, st.dest = some place → place < st.heap.length)
    (leaf : st.heap.isArray st.dest = false) :
    KeptApart (fun _ _ => False) st.heap (written source tokens st) := by
  induction tokens with
  | nil => exact keptApart_begins prefix_rfl
  | cons token tokens ih =>
    have properHere := proper token mem_cons_self
    have boundedHere := bounded token mem_cons_self
    have properLater := (forall_mem_cons.mp proper).2
    have boundedLater := (forall_mem_cons.mp bounded).2
    cases found : findOrAt st.heap st.dest token.step with
    | some c =>
      rcases access_leaf leaf found with ⟨-, same, accessed⟩
      cases tokens with
      | nil =>
        rw [written, assign, touch, accessed]
        exact keptApart_begins prefix_rfl
      | cons next tokens =>
        have notNull : c ≠ none := by
          rintro rfl
          rw [← same] at found
          exact absurd found (by simp [findOrAt_none])
        rw [written, enter_found st properHere boundedHere found notNull, same]
        exact ih properLater boundedLater
    | none =>
      cases tokens with
      | nil =>
        have same := (access_leaf_missing known leaf properHere.whole found).2
        rw [written, assign_expanded same, assign_array _ rfl (found_expanded st),
          ← append_nil (Heap.update _ _ _)]
        exact keptApart_begins (begins_expanded st _ _)
      | cons next tokens =>
        rcases enter_leaf properHere boundedHere known leaf found next with ⟨n, dest, fresh, begins⟩
        have empty := path_empty fresh ((next :: tokens).map PathToken.step)
        rw [← dest] at empty
        have later := @succeeds_open delim indexdelim source _
          (cons_ne_nil next tokens) properLater boundedLater _ empty.1 empty.2.1
        exact (keptApart_begins begins).trans later.1 fun q i put => empty.2.2 q i put.onPath

theorem follow_leaf {any : Handle} (same : heap'.impl any = heap.impl any)
    (leaf : heap.isArray any = false) (steps : List SlotStep) :
    follow (findOrAtDefined heap') any steps = follow (findOrAtDefined heap) any steps := by
  induction steps with
  | nil => rfl
  | cons step steps ih =>
    have first : findOrAtDefined heap' any step = findOrAtDefined heap any step := by
      cases step with
      | key name => rw [findOrAtDefined, findOrAtDefined, findOrAt_congr same]
      | index i => rw [findOrAtDefined, findOrAtDefined, findOrAt_congr same]
    rw [follow, follow, first]
    cases found : findOrAtDefined heap any step with
    | none => rfl
    | some c =>
      rw [(access_leaf leaf (findOrAt_of_defined found)).2.1]
      exact ih

theorem written_blocked (proper : ∀ token ∈ tokens, token.Proper delim indexdelim)
    (bounded : ∀ token ∈ tokens, token.Bounded) (st : SlotFinder)
    (contained : Contained st.heap st.dest)
    (blocked : ¬Open st.heap st.dest (tokens.map PathToken.step)) :
    KeptApart (fun _ _ => False) st.heap (written source tokens st) ∧
      follow (findOrAtDefined (written source tokens st)) st.dest
          (tokens.map PathToken.step) =
        follow (findOrAtDefined st.heap) st.dest (tokens.map PathToken.step) := by
  induction tokens generalizing st with
  | nil => exact absurd trivial blocked
  | cons token tokens ih =>
    cases array : st.heap.isArray st.dest with
    | false =>
      have kept := @written_leaf _ _ source _ st proper bounded contained.1 array
      exact ⟨kept, follow_leaf (kept.impl_leaf contained.1 array) array _⟩
    | true =>
      simp only [map_cons, Open, array, true_and, not_forall] at blocked
      rcases blocked with ⟨c, known, notNull, behind⟩
      rcases isArray_iff.mp array with ⟨place, slots, here, found⟩
      have held := known
      rw [here, findOrAt_array found] at held
      rcases map_eq_some_iff.mp held with ⟨i, index, rfl⟩
      cases tokens with
      | nil => exact absurd trivial behind
      | cons next tokens =>
        have entered := enter_found st (proper token mem_cons_self)
          (bounded token mem_cons_self) known notNull next
        have later := ih (forall_mem_cons.mp proper).2
          (forall_mem_cons.mp bounded).2
          { st with dest := slot slots i } (contained.slot found i) behind
        have kept := later.1.found found index id
        rw [← here] at kept
        rw [written, entered]
        exact ⟨later.1, (follow_found kept notNull _).trans
          (later.2.trans (follow_found known notNull _).symm)⟩

end SlotFinder

/-! ## Put and looked up -/

theorem readable_of_follow {c : Handle} {steps : List SlotStep} (some' : steps ≠ [])
    {any : Handle} (leads : follow (findOrAtDefined heap) any steps = some c) :
    Readable c steps := by
  induction steps generalizing any with
  | nil => exact absurd rfl some'
  | cons step steps ih =>
    rcases bind_eq_some_iff.mp leads with ⟨next, found, later⟩
    cases steps with
    | nil =>
      cases later
      cases step with
      | key name => exact Or.inr ⟨name, rfl⟩
      | index i => exact Or.inl (of_decide_eq_true (filter_eq_some_iff.mp found).2)
    | cons next steps =>
      rw [Readable, getLast?_cons_cons]
      exact ih (cons_ne_nil next steps) later

theorem Contained.expand (contained : Contained heap any) :
    Contained (heap.expand any).1 (heap.expand any).2 := by
  cases array : heap.isArray any with
  | true =>
    rw [expand_array array]
    exact contained
  | false =>
    rw [expand_leaf array]
    have grows : heap.length < (heap ++ [AnyImpl.array (heap.slots any)]).length := by
      rw [length_append]
      exact Nat.lt_succ_self _
    refine ⟨fun place same => Option.some.inj same ▸ grows, ?_⟩
    intro impl member held among place same
    refine lt_of_lt_of_le ?_ grows.le
    rcases mem_append.mp member with known | new
    · exact contained.2 impl known held among place same
    · rw [mem_singleton.mp new] at among
      rcases mem_map.mp among with ⟨slot, inside, rfl⟩
      rw [Heap.slots] at inside
      rw [isArray] at array
      split at inside
      · cases inside
      · simp_all
      · rw [mem_singleton.mp inside] at same
        exact contained.1 place same

namespace SlotPutter

open SlotCleaner (nestedHeap)

/-- The path leads to the value, and every slot that is not on it is as it was
in the destination, made an array if it was none. -/
def Puts (delim indexdelim : Byte) (heap : Heap) (source dest : Handle)
    (tokens : List PathToken) : Prop :=
  let path := joinTokens delim indexdelim tokens
  let before := heap.expand dest
  let after := operate heap source dest path false delim indexdelim
  (Anything.lookupPath after.1 after.2 path delim indexdelim).2 = some source ∧
    KeptApart (fun place i => OnPath before.1 place i before.2 (tokens.map PathToken.step))
      before.1 after.1

theorem operate_written (delims : Delimiters delim indexdelim) (heap : Heap)
    (source dest : Handle) {tokens : List PathToken} (some' : tokens ≠ [])
    (proper : ∀ token ∈ tokens, token.Proper delim indexdelim)
    (bounded : ∀ token ∈ tokens, token.Bounded) :
    operate heap source dest (joinTokens delim indexdelim tokens) false delim indexdelim =
      (SlotFinder.written source tokens ⟨(heap.expand dest).1, (heap.expand dest).2, [], -1⟩,
        (heap.expand dest).2) := by
  obtain ⟨last, isLast⟩ := ne_none_iff_exists'.mp (mt getLast?_eq_none_iff.mp some')
  rcases SlotFinder.intOperate_joinTokens delims _ tokens last le_rfl isLast proper _
      ⟨(heap.expand dest).1, (heap.expand dest).2, [], -1⟩ (-1)
      (Nat.lt_succ_of_le (length_le_joinTokens proper)) with
    ⟨destSlotname, destIdx, finds, ends⟩
  have isProper := proper last (mem_of_getLast? isLast)
  have isBounded := bounded last (mem_of_getLast? isLast)
  rw [operate]
  generalize heap.expand dest = work at *
  rcases work with ⟨heap', dest'⟩
  have start : (SlotFinder.mk heap' dest' [] (-1)).named (joinTokens delim indexdelim tokens)
      (-1) = ⟨heap', dest', joinTokens delim indexdelim tokens, -1⟩ := rfl
  rw [start] at finds
  dsimp only
  rw [finds, if_neg nofun, if_neg nofun]
  rw [← SlotFinder.written_eq source isLast]
  change ((SlotFinder.assign (SlotFinder.named _ _ _) (if destSlotname ≠ [] then
    SlotFinder.atKey destSlotname else SlotFinder.atIndex destIdx) source).heap, dest') = _
  cases last with
  | key name =>
    obtain rfl : destSlotname = name := ends
    rw [if_pos isProper.1, SlotFinder.assign_named]
    rfl
  | index digits =>
    rcases ends with ⟨rfl, rfl⟩
    rw [if_neg (not_not.mpr rfl), SlotFinder.number_eq isProper isBounded, SlotFinder.assign_named]
    rfl

/-- The keys in front of other steps have a hash, the indices fit a `long`, and
the slot that is put into is not on the way to itself. -/
structure Ordinary (heap : Heap) (dest : Handle) (tokens : List PathToken) : Prop where
  known : HashesKnown (tokens.map PathToken.step)
  bounded : ∀ token ∈ tokens, token.Bounded
  once : Once (heap.expand dest).1 (heap.expand dest).2 (tokens.map PathToken.step)

/-- No simple value is in the way and no Null is put to an index, or the path
has led to the value. -/
def Clear (delim indexdelim : Byte) (heap : Heap) (source dest : Handle)
    (tokens : List PathToken) : Prop :=
  (Open (heap.expand dest).1 (heap.expand dest).2 (tokens.map PathToken.step) ∧
    Readable source (tokens.map PathToken.step)) ∨
  (Anything.lookupPath (heap.expand dest).1 (heap.expand dest).2
    (joinTokens delim indexdelim tokens) delim indexdelim).2 = some source

/-- On an ordinary path that is clear the value is found and nothing else
changes, and on an ordinary path this is so only if it is clear. -/
theorem operate_puts_iff (delims : Delimiters delim indexdelim) (heap : Heap)
    (source dest : Handle) {tokens : List PathToken} (some' : tokens ≠ [])
    (proper : ∀ token ∈ tokens, token.Proper delim indexdelim) (contained : Contained heap dest) :
    (Ordinary heap dest tokens ∧ Clear delim indexdelim heap source dest tokens →
      Puts delim indexdelim heap source dest tokens) ∧
    (Ordinary heap dest tokens → Puts delim indexdelim heap source dest tokens →
      Clear delim indexdelim heap source dest tokens) := by
  suffices iff : Ordinary heap dest tokens → (Puts delim indexdelim heap source dest tokens ↔
      Clear delim indexdelim heap source dest tokens) from
    ⟨fun clear => (iff clear.1).mpr clear.2, fun ordinary => (iff ordinary).mp⟩
  rintro ⟨known, bounded, once⟩
  have looked : ∀ heap any, (Anything.lookupPath heap any
      (joinTokens delim indexdelim tokens) delim indexdelim).2 =
        follow (findOrAtDefined heap) any (tokens.map PathToken.step) := fun heap any => by
    rw [lookupPath_joinTokens delims heap any some' proper,
      follow_scannedTokens heap proper bounded known]
  have steps : tokens.map PathToken.step ≠ [] := mt map_eq_nil_iff.mp some'
  rw [Puts, Clear, operate_written delims heap source dest some' proper bounded, looked, looked]
  by_cases open' : Open (heap.expand dest).1 (heap.expand dest).2 (tokens.map PathToken.step)
  · have succeeds := @SlotFinder.succeeds_open delim indexdelim source tokens some' proper
      bounded ⟨(heap.expand dest).1, (heap.expand dest).2, [], -1⟩ open' once
    have kept := succeeds.1.mono fun _ _ put => put.onPath
    constructor
    · intro puts
      exact Or.inl ⟨open', readable_of_follow steps puts.1⟩
    · rintro (clear | leads)
      · exact ⟨succeeds.2 clear.2, kept⟩
      · exact ⟨succeeds.2 (readable_of_follow steps leads), kept⟩
  · have blocked := @SlotFinder.written_blocked delim indexdelim source tokens proper bounded
      ⟨(heap.expand dest).1, (heap.expand dest).2, [], -1⟩ contained.expand open'
    rw [blocked.2]
    constructor
    · exact fun puts => Or.inr puts.1
    · rintro (clear | leads)
      · exact absurd clear.1 open'
      · exact ⟨leads, blocked.1.mono fun _ _ => False.elim⟩

theorem operate_puts_nested :
    Puts (ch '.') (ch ':') nestedHeap (some 3) (some 0) [.key (lit "a"), .key (lit "z")] := by
  have first : ∀ c, findOrAt nestedHeap (some 0) (.key (lit "a")) = some c → some 1 = c :=
    fun c found => Option.some.inj (Eq.trans (by decide +kernel) found)
  have missing : findOrAt nestedHeap (some 1) (.key (lit "z")) = none := by decide +kernel
  have second : ∀ c, findOrAt nestedHeap (some 1) (.key (lit "z")) ≠ some c :=
    fun c found => some_ne_none c (found.symm.trans missing)
  have keyA : (SlotStep.key (lit "a")).Proper := by decide
  have keyZ : (SlotStep.key (lit "z")).Proper := by decide
  have handles : ∀ impl ∈ nestedHeap, ∀ held ∈ impl.handles,
      held.getD 0 < nestedHeap.length := by decide +kernel
  have proper : ∀ token ∈ [PathToken.key (lit "a"), .key (lit "z")],
      token.Proper (ch '.') (ch ':') :=
    forall_mem_cons.mpr ⟨keyA, forall_mem_singleton.mpr keyZ⟩
  have contained : Contained nestedHeap (some 0) := by
    constructor
    · intro place same
      exact Option.some.inj same ▸ by decide
    · intro impl member held among place same
      have bound := handles impl member held among
      rwa [same] at bound
  have ordinary : Ordinary nestedHeap (some 0) [.key (lit "a"), .key (lit "z")] := by
    refine ⟨by decide +kernel, forall_mem_cons.mpr ⟨trivial, forall_mem_singleton.mpr trivial⟩, ?_⟩
    intro c found _
    obtain rfl := first c found
    refine ⟨fun c found => absurd found (second c), ?_⟩
    rintro place i same - (⟨other, -⟩ | ⟨-, c, found, -⟩)
    · cases other
      cases same
    · exact second c found
  refine (operate_puts_iff defaultDelimiters nestedHeap (some 3) (some 0) (by decide) proper
    contained).1 ⟨ordinary, Or.inl ⟨⟨by decide, ?_⟩, Or.inl nofun⟩⟩
  intro c found _
  obtain rfl := first c found
  exact ⟨by decide, fun c found => absurd found (second c)⟩

/-- A simple value is in the way, a Null is not found by an index, a key
without a hash is not looked for alone, and the slot itself is on the way. -/
theorem not_puts :
    ¬Puts (ch '.') (ch ':') nestedHeap (some 2) (some 0)
      [.key (lit "a"), .key (lit "y"), .key (lit "z")] ∧
    ¬Puts (ch '.') (ch ':') nestedHeap none (some 0) [.key (lit "b"), .index (lit "0")] ∧
    ¬Puts (ch '.') (ch ':') nestedHeap (some 3) (some 0) [.key zeroHashKey, .key (lit "x")] ∧
    ¬Puts (ch '.') (ch ':') [.array [(lit "a", some 0)]] none (some 0)
      [.key (lit "a"), .key (lit "a")] := by
  refine ⟨fun puts => ?_, fun puts => ?_, fun puts => ?_, fun puts => ?_⟩
  · exact absurd puts.1 (by decide +kernel)
  · exact absurd puts.1 (by decide +kernel)
  · exact absurd puts.1 (by decide +kernel)
  · exact absurd puts.1 (by decide +kernel)

end SlotPutter

end Coast
