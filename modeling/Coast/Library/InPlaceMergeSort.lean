import Mathlib.Data.List.Sort

/-!
# Merge sort on a part of a list

The merge sort that works in place and copies only the lower half of a part
before it merges.  It does to the part what `List.mergeSort` does.
-/

namespace Coast.InPlaceMergeSort

variable {α : Type}

section Code

variable (le : α → α → Bool)

/-- The merging loop: `lower` is what is left of the copy of the lower half,
the upper half is read from `j` to `hi`, the next element is written to
`i`. -/
def mergeLoop : List α → Nat → Nat → Nat → List α → List α
  | [], _, _, _, table => table
  | x :: lower, i, j, hi, table =>
    if j ≤ hi then
      match table[j]? with
      | some y =>
        if le x y then mergeLoop lower (i + 1) j hi (table.set i x)
        else mergeLoop (x :: lower) (i + 1) (j + 1) hi (table.set i y)
      | none => table
    else mergeLoop lower (i + 1) j hi (table.set i x)
termination_by lower _ j hi _ => lower.length + (hi + 1 - j)

def mergeParts (lo hi m : Nat) (table : List α) : List α :=
  if hi < m + 1 ∨ m < lo then table
  else
    mergeLoop le ((table.drop lo).take (m - lo + 1)) lo (m + 1) hi table

def sortPart (lo hi : Nat) (table : List α) : List α :=
  if hi ≤ lo then table
  else
    let middle := (lo + hi) / 2
    mergeParts le lo hi middle (sortPart (middle + 1) hi (sortPart lo middle table))
termination_by hi - lo

/-- What holds when the loop runs as it should: every cell that it reads or
writes is there, it never writes to a cell that is still to be read, and it
ends with nothing left of the copy. -/
def MergeLoopSafe : List α → Nat → Nat → Nat → List α → Prop
  | [], i, j, _, _ => i = j
  | x :: lower, i, j, hi, table =>
    i < j ∧ i < table.length ∧
    if j ≤ hi then
      match table[j]? with
      | some y =>
        if le x y then MergeLoopSafe lower (i + 1) j hi (table.set i x)
        else MergeLoopSafe (x :: lower) (i + 1) (j + 1) hi (table.set i y)
      | none => False
    else MergeLoopSafe lower (i + 1) j hi (table.set i x)
termination_by lower _ j hi _ => lower.length + (hi + 1 - j)

def MergePartsSafe (lo hi m : Nat) (table : List α) : Prop :=
  if hi < m + 1 ∨ m < lo then True
  else
    m < table.length ∧ MergeLoopSafe le ((table.drop lo).take (m - lo + 1)) lo (m + 1) hi table

/-- All places that sorting touches are inside the table. -/
def SortPartSafe (lo hi : Nat) (table : List α) : Prop :=
  if hi ≤ lo then True
  else
    let middle := (lo + hi) / 2
    SortPartSafe lo middle table ∧ SortPartSafe (middle + 1) hi (sortPart le lo middle table) ∧
      MergePartsSafe le lo hi middle (sortPart le (middle + 1) hi (sortPart le lo middle table))
termination_by hi - lo

end Code

variable {le : α → α → Bool}

/-- The loop writes the merged halves over the gap and the upper half. -/
theorem mergeLoop_eq (upper : List α) :
    ∀ (lower before gap after : List α) (hi : Nat), gap.length = lower.length →
      hi + 1 = before.length + gap.length + upper.length →
      mergeLoop le lower before.length (before.length + gap.length) hi
          (before ++ gap ++ upper ++ after) =
        before ++ lower.merge upper le ++ after := by
  intro lower
  induction lower generalizing upper with
  | nil =>
    intro before gap after hi sameLength _
    have empty : gap = [] := List.length_eq_zero_iff.mp sameLength
    simp [mergeLoop, empty]
  | cons x lower lowerHypothesis =>
    induction upper with
    | nil =>
      intro before gap after hi sameLength ends
      cases gap with
      | nil => simp at sameLength
      | cons g gap =>
        simp only [List.length_cons, List.length_nil] at sameLength ends
        have written : (before ++ g :: gap ++ [] ++ after).set
            before.length x = (before ++ [x]) ++ gap ++ [] ++ after := by
          simp
        have rest := lowerHypothesis [] (before ++ [x]) gap after hi (by omega) (by simp; omega)
        rw [mergeLoop, if_neg (by simp; omega), written]
        simp only [List.length_append, List.length_cons, List.length_nil] at rest ⊢
        rw [show before.length + (gap.length + 1) =
          before.length + (0 + 1) + gap.length by omega, rest]
        simp
    | cons y upper upperHypothesis =>
      intro before gap after hi sameLength ends
      cases gap with
      | nil => simp at sameLength
      | cons g gap =>
        simp only [List.length_cons] at sameLength ends
        have inside : before.length + (g :: gap).length ≤ hi := by
          simp only [List.length_cons]
          omega
        have read : (before ++ g :: gap ++ y :: upper ++
            after)[before.length + (g :: gap).length]? = some y := by
          rw [List.append_assoc, ← List.length_append, List.getElem?_append_right (Nat.le_refl _)]
          simp
        rw [mergeLoop, if_pos inside, read]
        by_cases less : le x y = true
        · have written : (before ++ g :: gap ++ y :: upper ++
              after).set before.length x = (before ++ [x]) ++ gap ++ (y :: upper) ++ after := by
            simp
          have rest := lowerHypothesis (y :: upper) (before ++ [x]) gap
            after hi (by omega) (by simp; omega)
          simp only [if_pos less, written]
          simp only [List.length_append, List.length_cons, List.length_nil] at rest ⊢
          rw [show before.length + (gap.length + 1) =
            before.length + (0 + 1) + gap.length by omega, rest,
            List.cons_merge_cons, if_pos less]
          simp
        · have written : (before ++ g :: gap ++ y :: upper ++
              after).set before.length y = (before ++ [y]) ++ (gap ++ [y]) ++ upper ++ after := by
            simp
          have rest := upperHypothesis (before ++ [y]) (gap ++ [y])
            after hi (by simp; omega) (by simp; omega)
          simp only [if_neg less, written]
          simp only [List.length_append, List.length_cons, List.length_nil] at rest ⊢
          rw [show before.length + (gap.length + 1) + 1 =
            before.length + (0 + 1) + (gap.length + (0 + 1)) by omega,
            rest, List.cons_merge_cons, if_neg less]
          simp

theorem mergeParts_eq (le : α → α → Bool) (lower upper : List α) (before after : List α)
    (lowerNonempty : lower ≠ []) (upperNonempty : upper ≠ []) :
    mergeParts le before.length (before.length + lower.length + upper.length - 1)
        (before.length + lower.length - 1)
        (before ++ lower ++ upper ++ after) =
      before ++ lower.merge upper le ++ after := by
  have lowerPositive := List.length_pos_of_ne_nil lowerNonempty
  have upperPositive := List.length_pos_of_ne_nil upperNonempty
  have copy : ((before ++ lower ++ upper ++ after).drop before.length).take
      (before.length + lower.length - 1 - before.length + 1) = lower := by
    rw [show before.length + lower.length - 1 - before.length + 1 = lower.length by omega]
    simp
  rw [mergeParts, if_neg (by omega), copy,
    show before.length + lower.length - 1 + 1 = before.length + lower.length by omega]
  exact mergeLoop_eq upper lower before lower after _ rfl (by omega)

theorem mergeSort_halves {items : List α} (two : 2 ≤ items.length) :
    items.mergeSort le = ((items.take ((items.length + 1) / 2)).mergeSort le).merge
        ((items.drop ((items.length + 1) / 2)).mergeSort le) le := by
  match items, two with
  | a :: b :: items, _ =>
    rw [List.mergeSort]
    simp

theorem sortPart_eq (le : α → α → Bool) :
    ∀ (length : Nat) (before items after : List α), items.length = length → items ≠ [] →
      sortPart le before.length (before.length + items.length - 1)
          (before ++ items ++ after) =
        before ++ items.mergeSort le ++ after := by
  intro length
  induction length using Nat.strongRecOn with
  | ind length ih =>
    intro before items after sameLength nonempty
    have positive := List.length_pos_of_ne_nil nonempty
    by_cases single : items.length = 1
    · obtain ⟨item, rfl⟩ := List.length_eq_one_iff.mp single
      rw [sortPart, if_pos (by simp)]
      simp
    · have two : 2 ≤ items.length := by omega
      have split := List.take_append_drop ((items.length + 1) / 2) items
      set lower := items.take ((items.length + 1) / 2) with lowerDef
      set upper := items.drop ((items.length + 1) / 2) with upperDef
      have lowerLength : lower.length = (items.length + 1) / 2 := by
        rw [lowerDef, List.length_take]
        omega
      have upperLength : upper.length = items.length / 2 := by
        rw [upperDef, List.length_drop]
        omega
      have lowerNonempty : lower ≠ [] := List.ne_nil_of_length_pos (by omega)
      have upperNonempty : upper ≠ [] := List.ne_nil_of_length_pos (by omega)
      have middle : (before.length +
          (before.length + items.length - 1)) / 2 = before.length + lower.length - 1 := by
        omega
      have first := ih lower.length (by omega) before lower (upper ++ after) rfl lowerNonempty
      have second := ih upper.length (by omega)
        (before ++ lower.mergeSort le) upper after rfl upperNonempty
      rw [sortPart, if_neg (by omega)]
      simp only [middle]
      rw [show before ++ items ++ after = before ++ lower ++ (upper ++ after) by
        rw [← split]
        simp, first]
      rw [List.length_append, List.length_mergeSort] at second
      rw [show before.length + lower.length - 1 + 1 = before.length + lower.length by omega,
        show before.length + items.length - 1 =
          before.length + lower.length + upper.length - 1 by omega,
        ← List.append_assoc, second]
      have merged := mergeParts_eq le (lower.mergeSort le) (upper.mergeSort le) before after
        (List.ne_nil_of_length_pos (by
          rw [List.length_mergeSort]
          omega))
        (List.ne_nil_of_length_pos (by
          rw [List.length_mergeSort]
          omega))
      rw [List.length_mergeSort, List.length_mergeSort] at merged
      rw [merged, mergeSort_halves two]

theorem sortPart_front (items after : List α) :
    sortPart le 0 (items.length - 1) (items ++ after) = items.mergeSort le ++ after := by
  by_cases nonempty : items = []
  · subst nonempty
    rw [sortPart, if_pos (by simp), List.mergeSort_nil]
  · have sorted := sortPart_eq le items.length [] items after rfl nonempty
    simpa using sorted

theorem sortPart_all (items : List α) :
    sortPart le 0 (items.length - 1) items = items.mergeSort le := by
  have sorted := @sortPart_front _ le items []
  rwa [List.append_nil, List.append_nil] at sorted

theorem length_mergeLoop (lower : List α) (i j hi : Nat) (table : List α) :
    (mergeLoop le lower i j hi table).length = table.length := by
  fun_induction mergeLoop le lower i j hi table <;> simp_all

theorem length_sortPart (lo hi : Nat) (table : List α) :
    (sortPart le lo hi table).length = table.length := by
  fun_induction sortPart le lo hi table with
  | case1 => rfl
  | case2 lo hi table more middle lowerSame _ upperSame =>
    rw [mergeParts]
    split
    · rw [upperSame, lowerSame]
    · rw [length_mergeLoop, upperSame, lowerSame]

theorem mergeLoop_safe (lower : List α) (i j hi : Nat) (table : List α)
    (gap : i + lower.length = j) (inside : j ≤ table.length) (ends : hi < table.length) :
    MergeLoopSafe le lower i j hi table := by
  fun_induction mergeLoop le lower i j hi table with
  | case1 i j hi table =>
    rw [MergeLoopSafe]
    exact gap
  | case2 i j hi table x lower more y read less ih =>
    rw [List.length_cons] at gap
    rw [MergeLoopSafe, if_pos more, read]
    simp only [if_pos less]
    exact ⟨by omega, by omega, ih (by omega) (by simpa using inside) (by simpa using ends)⟩
  | case3 i j hi table x lower more y read less ih =>
    rw [List.length_cons] at gap
    rw [MergeLoopSafe, if_pos more, read]
    simp only [if_neg less]
    refine ⟨by omega, by omega, ih ?_ ?_ (by simpa using ends)⟩
    · rw [List.length_cons]
      omega
    · rw [List.length_set]
      omega
  | case4 i j hi table x lower more outside =>
    have behind := List.getElem?_eq_none_iff.mp outside
    omega
  | case5 i j hi table x lower done ih =>
    rw [List.length_cons] at gap
    rw [MergeLoopSafe, if_neg done]
    exact ⟨by omega, by omega, ih (by omega) (by simpa using inside) (by simpa using ends)⟩

/-- A sort of a part that ends inside the table. -/
theorem sortPart_safe (lo hi : Nat) (table : List α) (ends : hi < table.length ∨ hi ≤ lo) :
    SortPartSafe le lo hi table := by
  fun_induction SortPartSafe le lo hi table with
  | case1 => trivial
  | case2 lo hi table more middle lowerSafe upperSafe =>
    have lowerLength : (sortPart le lo middle table).length = table.length :=
      length_sortPart lo middle table
    have upperLength := @length_sortPart _ le (middle + 1) hi (sortPart le lo middle table)
    refine ⟨lowerSafe (by omega), upperSafe (by omega), ?_⟩
    rw [MergePartsSafe, if_neg (by omega)]
    refine ⟨by omega, mergeLoop_safe _ _ _ _ _ ?_ (by omega) (by omega)⟩
    rw [List.length_take, List.length_drop]
    omega

/-- The items in the order of `le`; items that neither is before the other keep
the order they had. -/
structure StableSort (le : α → α → Bool) (items sorted : List α) : Prop where
  perm : sorted.Perm items
  ordered : sorted.Pairwise fun left right => le left right = true
  stable : ∀ item ∈ items, sorted.filter (fun other => le item other && le other item) =
    items.filter fun other => le item other && le other item

theorem mergeSort_stable {le : α → α → Bool} (total : ∀ a b, (le a b || le b a) = true)
    (trans : ∀ a b c, le a b = true → le b c = true → le a c = true) (items : List α) :
    StableSort le items (items.mergeSort le) where
  perm := List.mergeSort_perm items le
  ordered := List.pairwise_mergeSort trans total items
  stable item _ := by
    have alike : (items.filter fun other => le item other && le other item).Pairwise
        fun left right => le left right = true := by
      apply List.pairwise_of_forall_mem_list
      intro left leftIn right rightIn
      have before := (List.mem_filter.mp leftIn).2
      have behind := (List.mem_filter.mp rightIn).2
      rw [Bool.and_eq_true] at before behind
      exact trans left item right before.2 behind.1
    have kept := List.sublist_mergeSort trans total alike List.filter_sublist
    have same := kept.filter fun other => le item other && le other item
    rw [List.filter_filter] at same
    simp only [Bool.and_self] at same
    exact (same.eq_of_length ((List.mergeSort_perm items le).filter _).length_eq.symm).symm

theorem StableSort.congr {le le' : α → α → Bool} {items sorted : List α}
    (sorts : StableSort le items sorted)
    (same : ∀ a ∈ items, ∀ b ∈ items, le a b = le' a b) : StableSort le' items sorted where
  perm := sorts.perm
  ordered := by
    refine sorts.ordered.imp_of_mem fun {a b} left right before => ?_
    rw [← same a (sorts.perm.mem_iff.mp left) b (sorts.perm.mem_iff.mp right)]
    exact before
  stable item member := by
    have alike : ∀ other ∈ items,
        (le' item other && le' other item) = (le item other && le other item) := by
      intro other there
      rw [same item member other there, same other there item member]
    rw [List.filter_congr alike, ← sorts.stable item member]
    exact List.filter_congr fun other there => alike other (sorts.perm.mem_iff.mp there)

/-- Where the items with a property are before those without it, and these are
all alike, the latter follow the former as they were. -/
theorem StableSort.split {le : α → α → Bool} {items sorted : List α}
    (sorts : StableSort le items sorted) (found : α → Bool)
    (first : ∀ a b, le a b = true → found b = true → found a = true)
    (alike : ∀ a b, found b = false → le a b = true) :
    sorted = sorted.filter found ++ items.filter (fun item => !found item) ∧
      StableSort le (items.filter found) (sorted.filter found) := by
  constructor
  · have missing : sorted.filter (fun item => !found item) =
        items.filter fun item => !found item := by
      by_cases lacks : ∃ item ∈ items, found item = false
      · rcases lacks with ⟨item, member, lacks⟩
        have same : (fun other => le item other && le other item) = fun other => !found other := by
          funext other
          cases has : found other with
          | false => rw [alike item other has, alike other item lacks]; rfl
          | true =>
            rw [Bool.and_eq_false_imp.mpr]
            · rfl
            · intro before
              rw [first item other before has] at lacks
              cases lacks
        rw [← same]
        exact sorts.stable item member
      · have all : ∀ item ∈ items, ¬(!found item) = true := by
          intro item member none
          exact lacks ⟨item, member, by simpa using none⟩
        rw [List.filter_eq_nil_iff.mpr all, List.filter_eq_nil_iff.mpr]
        exact fun item member => all item (sorts.perm.mem_iff.mp member)
    rw [← missing]
    have ordered := sorts.ordered
    clear missing sorts
    induction sorted with
    | nil => rfl
    | cons item sorted ih =>
      rcases List.pairwise_cons.mp ordered with ⟨before, ordered⟩
      cases has : found item with
      | true => simpa [has] using ih ordered
      | false =>
        have none : sorted.filter found = [] := by
          apply List.filter_eq_nil_iff.mpr
          intro other member isFound
          rw [first item other (before other member) isFound] at has
          cases has
        have rest : sorted.filter (fun item => !found item) = sorted := by
          apply List.filter_eq_self.mpr
          intro other member
          rw [Bool.not_eq_true', Bool.eq_false_iff]
          exact fun isFound => List.filter_eq_nil_iff.mp none other member isFound
        simp [has, none, rest]
  · constructor
    · exact sorts.perm.filter found
    · exact sorts.ordered.filter found
    · intro item member
      rw [List.filter_comm, sorts.stable item (List.mem_filter.mp member).1, List.filter_comm]

end Coast.InPlaceMergeSort
