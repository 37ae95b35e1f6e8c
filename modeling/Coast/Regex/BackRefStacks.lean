import Coast.Regex.RE

/-!
# The stacks of starts and ends

A run that fails takes the last entry of a stack away, which need not be the
one it pushed: a reluctant closure leaves entries behind.  What stays is that
as many starts as ends are added, and that the first start is in front of the
first end.
-/

namespace Coast

open List Nat Function

/-! ## One pair of parentheses -/

namespace BackRefs

/-- The first start is in front of the first end, and in front of the index
when there is no end. -/
structure Ordered (idx : Nat) (refs : BackRefs) : Prop where
  closed : ∀ e ∈ refs.2.head?, ∃ s ∈ refs.1.head?, s ≤ e
  opened : refs.2 = [] → ∀ s ∈ refs.1.head?, s ≤ idx

def Grown (idx : Nat) (refs after : BackRefs) : Prop :=
  ∃ starts ends, after = (refs.1 ++ starts, refs.2 ++ ends) ∧ starts.length = ends.length ∧
    (∀ s ∈ starts, idx ≤ s) ∧ (∀ e ∈ ends, idx ≤ e) ∧
    (refs.1 = [] → ∀ s ∈ starts.head?, ∀ e ∈ ends.head?, s ≤ e)

variable {idx idxNew : Nat} {refs after last : BackRefs}

theorem Ordered.mono (ordered : Ordered idx refs) (later : idx ≤ idxNew) : Ordered idxNew refs :=
  ⟨ordered.closed, fun open_ s first =>
    le_trans (ordered.opened open_ s first) later⟩

theorem Grown.refl (idx : Nat) (refs : BackRefs) : Grown idx refs refs := by
  refine ⟨[], [], ?_, rfl, nofun, nofun, fun _ => nofun⟩
  rw [append_nil, append_nil]

theorem Grown.trans (first : Grown idx refs after) (later : idx ≤ idxNew)
    (second : Grown idxNew after last) : Grown idx refs last := by
  rcases first with ⟨starts, ends, rfl, length, startsLater, endsLater, heads⟩
  rcases second with ⟨starts', ends', rfl, length', startsLater', endsLater', heads'⟩
  refine ⟨starts ++ starts', ends ++ ends', ?_, ?_, ?_, ?_, ?_⟩
  · simp
  · simp [length, length']
  · intro s member
    rcases mem_append.mp member with here | there
    · exact startsLater s here
    · exact le_trans later (startsLater' s there)
  · intro e member
    rcases mem_append.mp member with here | there
    · exact endsLater e here
    · exact le_trans later (endsLater' e there)
  · intro empty
    cases starts with
    | nil =>
      obtain rfl : ends = [] := length_eq_zero_iff.mp length.symm
      exact heads' (by simp [empty])
    | cons s starts =>
      cases ends with
      | nil => cases length
      | cons e ends => exact heads empty

theorem Grown.ordered (grown : Grown idx refs after)
    (ordered : Ordered idx refs) (later : idx ≤ idxNew) :
    Ordered idxNew after := by
  rcases grown with ⟨starts, ends, rfl, length, startsLater, endsLater, heads⟩
  rcases refs with ⟨starts₀, ends₀⟩
  rcases ordered with ⟨closed, opened⟩
  cases ends₀ with
  | cons e ends₀ =>
    rcases closed e rfl with ⟨s, first, order⟩
    cases starts₀ with
    | nil => cases first
    | cons s₀ starts₀ =>
      cases first
      exact ⟨fun e' same => ⟨s, rfl, by cases same; exact order⟩, nofun⟩
  | nil =>
    cases ends with
    | nil =>
      obtain rfl : starts = [] := length_eq_zero_iff.mp length
      simp only [append_nil]
      exact Ordered.mono ⟨closed, opened⟩ later
    | cons e ends =>
      cases starts with
      | nil => cases length
      | cons s starts =>
        refine ⟨?_, nofun⟩
        rintro _ ⟨rfl⟩
        cases starts₀ with
        | nil => exact ⟨s, rfl, heads rfl s rfl e rfl⟩
        | cons s₀ starts₀ =>
          exact ⟨s₀, rfl, le_trans (opened rfl s₀ rfl) (endsLater e (mem_cons_self))⟩

theorem Grown.popStart (grown : Grown idx (refs.1 ++ [idx], refs.2) after) :
    Grown idx refs (after.1.dropLast, after.2) := by
  rcases grown with ⟨starts, ends, rfl, length, startsLater, endsLater, _⟩
  refine ⟨(idx :: starts).dropLast, ends, ?_, ?_, ?_, endsLater, ?_⟩
  · simp [dropLast_append_of_ne_nil]
  · simp [length]
  · intro s member
    rcases mem_cons.mp (dropLast_subset _ member) with rfl | there
    · exact le_refl _
    · exact startsLater s there
  · intro _ s first e firstEnd
    have later := endsLater e (mem_of_head? firstEnd)
    cases starts with
    | nil => cases first
    | cons s' starts =>
      cases first
      exact later

/-- A group that was closed inside is taken off again. -/
theorem Grown.popEnd (grown : Grown idx (refs.1, refs.2 ++ [idx]) after)
    (opened : refs.1 ≠ []) : Grown idx refs (after.1, after.2.dropLast) := by
  rcases grown with ⟨starts, ends, rfl, length, startsLater, endsLater, _⟩
  refine ⟨starts, (idx :: ends).dropLast, ?_, ?_, startsLater, ?_, ?_⟩
  · simp [dropLast_append_of_ne_nil]
  · simp [length]
  · intro e member
    rcases mem_cons.mp (dropLast_subset _ member) with rfl | there
    · exact le_refl _
    · exact endsLater e there
  · exact fun empty => absurd empty opened

theorem Ordered.pushStart (ordered : Ordered idx refs) : Ordered idx (refs.1 ++ [idx], refs.2) := by
  rcases refs with ⟨starts, ends⟩
  cases starts with
  | nil =>
    refine ⟨fun e first => ?_, ?_⟩
    · rcases ordered.closed e first with ⟨s, none_, _⟩
      cases none_
    · rintro _ s ⟨rfl⟩
      exact le_refl _
  | cons s starts => exact ⟨ordered.closed, ordered.opened⟩

theorem Ordered.pushEnd (ordered : Ordered idx refs) (opened : refs.1 ≠ []) :
    Ordered idx (refs.1, refs.2 ++ [idx]) := by
  rcases refs with ⟨starts, ends⟩
  cases ends with
  | nil =>
    refine ⟨?_, nofun⟩
    rintro _ ⟨rfl⟩
    cases starts with
    | nil => exact absurd rfl opened
    | cons s starts => exact ⟨s, rfl, ordered.opened rfl s rfl⟩
  | cons e ends => exact ⟨ordered.closed, nofun⟩

theorem Grown.closed (later : idx ≤ idxNew) (grown : Grown idx (refs.1 ++ [idx], refs.2) after) :
    Grown idx refs (after.1, after.2 ++ [idxNew]) := by
  rcases grown with ⟨starts, ends, rfl, length, startsLater, endsLater, _⟩
  refine ⟨idx :: starts, ends ++ [idxNew], ?_, ?_, ?_, ?_, ?_⟩
  · simp
  · simp [length]
  · intro s member
    rcases mem_cons.mp member with rfl | there
    · exact le_refl _
    · exact startsLater s there
  · intro e member
    rcases mem_append.mp member with here | there
    · exact endsLater e here
    · rw [mem_singleton.mp there]
      exact later
  · rintro _ s ⟨rfl⟩ e firstEnd
    rcases mem_append.mp (mem_of_head? firstEnd) with here | there
    · exact endsLater e here
    · rw [mem_singleton.mp there]
      exact later

theorem Grown.opened (grown : Grown idx (refs.1 ++ [idx], refs.2) after) : after.1 ≠ [] := by
  rcases grown with ⟨starts, ends, rfl, _⟩
  simp

end BackRefs

/-! ## All pairs of parentheses -/

theorem getD_writeSlot {α : Type} (slots : List α) (empty a : α) (i j : Nat) :
    (writeSlot slots empty i a).getD j empty = if j = i then a else slots.getD j empty := by
  rw [writeSlot, getD_eq_getElem?_getD, getElem?_set, getD_eq_getElem?_getD]
  by_cases same : i = j
  · subst same
    rw [if_pos rfl, if_pos rfl, if_pos]
    · rfl
    · simp only [length_append, length_replicate]
      omega
  · rw [if_neg same, if_neg (Ne.symm same), getElem?_append]
    split
    · rfl
    · rename_i outside
      rw [getElem?_eq_none (not_lt.mp outside)]
      rw [getElem?_replicate]
      split <;> rfl

namespace MatchState

theorem backRefs_setBackRefs (st : MatchState) (n : Nat) (refs : BackRefs) :
    (st.setBackRefs n refs).backRefs = Function.update st.backRefs n refs := by
  funext m
  rw [backRefs, setBackRefs, getD_writeSlot, update_apply]
  rfl

theorem backRefs_setStart (st : MatchState) (which i : Nat) :
    (st.setStart which i).backRefs = st.backRefs := by
  rw [setStart]
  split <;> rfl

theorem backRefs_setEnd (st : MatchState) (which i : Nat) :
    (st.setEnd which i).backRefs = st.backRefs := by
  rw [setEnd]
  split <;> rfl

def Ordered (idx : Nat) (st : MatchState) : Prop := ∀ n, (st.backRefs n).Ordered idx

def Grown (idx : Nat) (st after : MatchState) : Prop :=
  ∀ n, (st.backRefs n).Grown idx (after.backRefs n)

variable {idx idxNew : Nat} {st after last : MatchState}

theorem Grown.refl (idx : Nat) (st : MatchState) : Grown idx st st := fun _ => .refl _ _

theorem Grown.trans (first : Grown idx st after) (later : idx ≤ idxNew)
    (second : Grown idxNew after last) : Grown idx st last :=
  fun n => (first n).trans later (second n)

theorem Grown.ordered (grown : Grown idx st after) (ordered : Ordered idx st)
    (later : idx ≤ idxNew) : Ordered idxNew after :=
  fun n => (grown n).ordered (ordered n) later

theorem Ordered.mono (ordered : Ordered idx st) (later : idx ≤ idxNew) :
    Ordered idxNew st := fun n => (ordered n).mono later

theorem ordered_matchStart (i : Nat) : Ordered i (RE.matchStart i) :=
  fun _ => ⟨nofun, fun _ => nofun⟩

theorem Ordered.pushStart (ordered : Ordered idx st) (which : Nat) :
    Ordered idx (st.pushStart which idx) := by
  intro n
  rw [MatchState.pushStart, backRefs_setBackRefs, update_apply]
  split
  · exact (ordered which).pushStart
  · exact ordered n

theorem Grown.popStart {which : Nat} (grown : Grown idx (st.pushStart which idx) after) :
    Grown idx st (after.popStart which) := by
  intro n
  have there := grown n
  rw [MatchState.pushStart, backRefs_setBackRefs] at there
  rw [MatchState.popStart, backRefs_setBackRefs, update_apply]
  rw [update_apply] at there
  split
  · rename_i same
    subst same
    rw [if_pos rfl] at there
    exact there.popStart
  · rename_i other
    rwa [if_neg other] at there

section

variable {which : Nat} (grown : Grown idx (st.pushStart which idx) after)

include grown

theorem Grown.opened : (after.backRefs which).1 ≠ [] := by
  have there := grown which
  rw [MatchState.pushStart, backRefs_setBackRefs, update_self] at there
  exact there.opened

theorem Grown.pushEnd (later : idx ≤ idxNew) : Grown idx st (after.pushEnd which idxNew) := by
  intro n
  have there := grown n
  rw [MatchState.pushStart, backRefs_setBackRefs, update_apply] at there
  rw [MatchState.pushEnd, backRefs_setBackRefs, update_apply]
  split
  · rename_i same
    subst same
    rw [if_pos rfl] at there
    exact there.closed later
  · rename_i other
    rwa [if_neg other] at there

end

theorem Ordered.pushEnd {which : Nat} (ordered : Ordered idx st)
    (opened : (st.backRefs which).1 ≠ []) :
    Ordered idx (st.pushEnd which idx) := by
  intro n
  rw [MatchState.pushEnd, backRefs_setBackRefs, update_apply]
  split
  · exact (ordered which).pushEnd opened
  · exact ordered n

theorem Grown.popEnd {which : Nat} (grown : Grown idx (st.pushEnd which idx) after)
    (opened : (st.backRefs which).1 ≠ []) :
    Grown idx st (after.popEnd which) := by
  intro n
  have there := grown n
  rw [MatchState.pushEnd, backRefs_setBackRefs, update_apply] at there
  rw [MatchState.popEnd, backRefs_setBackRefs, update_apply]
  split
  · rename_i same
    subst same
    rw [if_pos rfl] at there
    exact there.popEnd opened
  · rename_i other
    rwa [if_neg other] at there

end MatchState

end Coast
