import Mathlib.Data.List.GetD

/-!
# Texts followed by blanks

A text is read as if blanks followed it without end, so a block that holds
more blanks than the text shows the same.
-/

namespace Coast.PaddedText

variable {β : Type} {blank : β}

/-- One entry is written; a gap in front of it is filled with blanks. -/
def writeAt (blank : β) (text : List β) (position : Nat) (entry : β) : List β :=
  if position < text.length then text.set position entry
  else text ++ List.replicate (position - text.length) blank ++ [entry]

def resize (blank : β) (text : List β) (size : Nat) : List β :=
  text.take size ++ List.replicate (size - text.length) blank

def Shows (blank : β) (block text : List β) : Prop := ∀ i, block.getD i blank = text.getD i blank

theorem length_writeAt (blank : β) (text : List β) (position : Nat)
    (entry : β) : (writeAt blank text position entry).length = max text.length (position + 1) := by
  unfold writeAt
  split
  · rw [List.length_set]
    omega
  · simp only [List.length_append, List.length_replicate, List.length_singleton]
    omega

theorem length_resize (text : List β) (size : Nat) : (resize blank text size).length = size := by
  unfold resize
  rw [List.length_append, List.length_take, List.length_replicate]
  omega

theorem resize_self (text : List β) : resize blank text text.length = text := by
  unfold resize
  rw [List.take_length, Nat.sub_self]
  exact List.append_nil text

theorem getD_replicate (count i : Nat) : (List.replicate count blank).getD i blank = blank := by
  rw [List.getD_eq_getElem?_getD]
  exact List.getElem?_getD_replicate_default_eq blank count i

theorem getD_append_replicate (text : List β) (count i : Nat) :
    (text ++ List.replicate count blank).getD i blank = text.getD i blank := by
  by_cases inside : i < text.length
  · exact List.getD_append text _ blank i inside
  · rw [List.getD_append_right _ _ _ _ (Nat.le_of_not_lt inside),
      List.getD_eq_default _ _ (Nat.le_of_not_lt inside), getD_replicate]

theorem getD_writeAt (text : List β) (position i : Nat) (entry : β) :
    (writeAt blank text position entry).getD i blank =
      if i = position then entry else text.getD i blank := by
  unfold writeAt
  split
  · rename_i inside
    rw [List.getD_eq_getElem?_getD, List.getElem?_set]
    by_cases here : position = i
    · rw [if_pos here, if_pos inside, if_pos here.symm]
      rfl
    · rw [if_neg here, if_neg (Ne.symm here), List.getD_eq_getElem?_getD]
  · rename_i outside
    have front : (text ++ List.replicate (position - text.length) blank).length = position := by
      rw [List.length_append, List.length_replicate]
      omega
    by_cases inFront : i < position
    · rw [if_neg (by omega), List.getD_append _ _ _ _ (by omega), getD_append_replicate]
    · rw [List.getD_append_right _ _ _ _ (by omega), front]
      by_cases here : i = position
      · rw [if_pos here, here, Nat.sub_self]
        rfl
      · rw [if_neg here, List.getD_eq_default _ _ (by
          rw [List.length_singleton]
          omega), List.getD_eq_default _ _ (by omega)]

theorem Shows.writeAt {block text : List β} (shows' : Shows blank block text)
    (position : Nat) (entry : β) :
    Shows blank (writeAt blank block position entry)
      (PaddedText.writeAt blank text position entry) := by
  intro i
  rw [getD_writeAt, getD_writeAt, shows' i]

theorem Shows.grow {block text : List β} (shows' : Shows blank block text)
    {position : Nat} (behind : block.length ≤ position) :
    Shows blank (PaddedText.writeAt blank block position blank) text := by
  intro i
  rw [getD_writeAt, ← shows' i]
  split
  · rename_i here
    rw [List.getD_eq_default _ _ (here ▸ behind)]
  · rfl

theorem Shows.resize {block text : List β} (shows' : Shows blank block text) :
    resize blank block text.length = text := by
  apply List.ext_getElem (length_resize block text.length)
  intro i inBlock inText
  have resized : (PaddedText.resize blank block text.length).getD i blank = block.getD i blank := by
    unfold PaddedText.resize
    by_cases inFront : i < (block.take text.length).length
    · rw [List.getD_append _ _ _ _ inFront, List.getD_eq_getElem?_getD,
        List.getElem?_take_of_lt inText, ← List.getD_eq_getElem?_getD]
    · rw [List.length_take] at inFront
      rw [List.getD_append_right _ _ _ _ (by rw [List.length_take]; omega),
        getD_replicate, List.getD_eq_default _ _ (by omega)]
  rw [← List.getD_eq_getElem _ blank inBlock, ← List.getD_eq_getElem _ blank inText, resized]
  exact shows' i

end Coast.PaddedText
