import Mathlib.Data.List.Basic

/-!
# Writing into a block

A block of fixed length is overwritten from some place on; what does not fit
into the block is not written.
-/

namespace Coast

namespace Overwrite

variable {α : Type}

/-- `values` in place of what stands in `block` from `start` on, when it
fits. -/
def overwrite (block : List α) (start : Nat) (values : List α) : Option (List α) :=
  if start + values.length ≤ block.length then
    some (block.take start ++ values ++ block.drop (start + values.length))
  else none

variable {block values : List α} {start : Nat}

theorem overwrite_of_fits (fits : start + values.length ≤ block.length) :
    ∃ result, overwrite block start values = some result := by
  unfold overwrite
  rw [if_pos fits]
  exact ⟨_, rfl⟩

variable {result : List α}

variable (written : overwrite block start values = some result)
include written

theorem length_overwrite : result.length = block.length := by
  unfold overwrite at written
  split at written
  · cases written
    simp only [List.length_append, List.length_take, List.length_drop]
    omega
  · cases written

theorem getElem?_overwrite_behind {i : Nat} (behind : start + values.length ≤ i) :
    result[i]? = block[i]? := by
  unfold overwrite at written
  split at written
  · rename_i fits
    cases written
    have front : (block.take start ++ values).length = start + values.length := by
      simp only [List.length_append, List.length_take]
      omega
    rw [List.getElem?_append_right (by omega), front, List.getElem?_drop]
    congr 1
    omega
  · cases written

/-- In front of what is written the block stays as it is, too. -/
theorem getElem?_overwrite_front {i : Nat} (inFront : i < start) : result[i]? = block[i]? := by
  unfold overwrite at written
  split at written
  · rename_i fits
    cases written
    have front : i < (block.take start).length := by
      rw [List.length_take]
      omega
    rw [List.append_assoc, List.getElem?_append_left front, List.getElem?_take_of_lt inFront]
  · cases written

theorem getElem?_overwrite_inside {i : Nat} (inside : i < values.length) :
    result[start + i]? = values[i]? := by
  unfold overwrite at written
  split at written
  · rename_i fits
    cases written
    have front : (block.take start).length = start := by
      rw [List.length_take]
      omega
    rw [List.append_assoc, List.getElem?_append_right (by omega), front,
      Nat.add_sub_cancel_left, List.getElem?_append_left inside]
  · cases written



end Overwrite

/-!
## Texts that are written at positions

What is known of a text after writes at arbitrary positions: the entries that
were written, and where the text ends.
-/

namespace RandomAccess

variable {β : Type}

/-- The entries of a text that are known, and its length. -/
structure Written (β : Type) where
  known : Nat → Option β
  size : Nat

namespace Written

def ofList (entries : List β) : Written β := ⟨fun i => entries[i]?, entries.length⟩

def write (this : Written β) (position : Nat) (entry : β) : Written β :=
  ⟨Function.update this.known position (some entry), max this.size (position + 1)⟩

def Bounded (this : Written β) : Prop := ∀ i entry, this.known i = some entry → i < this.size

def HeldBy (this : Written β) (block : List β) : Prop :=
  ∀ i entry, this.known i = some entry → block[i]? = some entry

/-- The text is as long as it has to be and holds what was written. -/
structure Is (this : Written β) (text : List β) : Prop where
  length : text.length = this.size
  held : this.HeldBy text

variable {this : Written β} {block : List β}

theorem ofList_bounded (entries : List β) : (ofList entries).Bounded := by
  intro i entry known
  exact (List.getElem?_eq_some_iff.mp known).1

theorem Bounded.write (bounded : this.Bounded) (position : Nat) (entry : β) :
    (this.write position entry).Bounded := by
  intro i other known
  simp only [Written.write, Function.update_apply] at known ⊢
  split_ifs at known with here
  · omega
  · have := bounded i other known
    omega

variable (held : this.HeldBy block)
include held

/-- A block stays right where nothing known is overwritten. -/
theorem HeldBy.of_agree {block' : List β}
    (agree : ∀ i entry, this.known i = some entry →
      block'[i]? = block[i]?) : this.HeldBy block' := by
  intro i entry known
  rw [agree i entry known]
  exact held i entry known

theorem HeldBy.write {position : Nat} (inside : position < block.length) (entry : β) :
    (this.write position entry).HeldBy (block.set position entry) := by
  intro i other known
  simp only [Written.write, Function.update_apply] at known
  split_ifs at known with here
  · cases known
    rw [here, List.getElem?_set_self inside]
  · rw [List.getElem?_set_ne (Ne.symm here)]
    exact held i other known

theorem HeldBy.is_take (bounded : this.Bounded)
    (long : this.size ≤ block.length) : this.Is (block.take this.size) where
  length := by
    rw [List.length_take]
    omega
  held := by
    intro i entry known
    have inside := bounded i entry known
    rw [List.getElem?_take_of_lt inside]
    exact held i entry known

end Written

end RandomAccess

end Coast
