import Mathlib.Algebra.Order.BigOperators.Group.Finset
import Mathlib.Order.Interval.Finset.Nat

/-!
# Lists that are threaded through memory

`link` reads at an address where the list goes on; it gives nothing where no
element stands.
-/

namespace Coast

namespace LinkedChain

variable {α : Type} {link link' : α → Option (Option α)}

/-- The elements that are met from this pointer on. -/
inductive Chain (link : α → Option (Option α)) : Option α → List α → Prop
  | nil : Chain link none []
  | cons {o : α} {next : Option α} {elements : List α} :
      link o = some next → Chain link next elements →
      Chain link (some o) (o :: elements)

/-- The address is met from this pointer on. -/
inductive Reaches (link : α → Option (Option α)) : Option α → α → Prop
  | here {o : α} : Reaches link (some o) o
  | later {o target : α} {next : Option α} : link o = some next → Reaches link next target →
      Reaches link (some o) target

variable {first : Option α} {elements : List α}

section

variable (chain : Chain link first elements)
include chain

theorem Chain.mem_of_reaches {target : α}
    (reaches : Reaches link first target) : target ∈ elements := by
  induction reaches generalizing elements with
  | here =>
    cases chain
    exact List.mem_cons_self
  | later goesOn _ ih =>
    cases chain with
    | cons goesOn' rest =>
      rw [goesOn] at goesOn'
      cases goesOn'
      exact List.mem_cons_of_mem _ (ih rest)

theorem Chain.congr (same : ∀ o ∈ elements, link' o = link o) : Chain link' first elements := by
  induction chain with
  | nil => exact Chain.nil
  | cons goesOn _ ih =>
    refine Chain.cons ?_ (ih ?_)
    · rw [same _ List.mem_cons_self, goesOn]
    · intro o member
      exact same o (List.mem_cons_of_mem _ member)

theorem Chain.push {o : α} (goesOn : link' o = some first)
    (same : ∀ o ∈ elements, link' o = link o) :
    Chain link' (some o) (o :: elements) :=
  Chain.cons goesOn (chain.congr same)

end

theorem Chain.pop {o : α} (chain : Chain link (some o) elements) :
    ∃ next rest, elements = o :: rest ∧ link o = some next ∧ Chain link next rest := by
  cases chain with
  | cons goesOn rest => exact ⟨_, _, rfl, goesOn, rest⟩

end LinkedChain

/-!
## Chunks of a block of memory

A map says of which kind the chunk is that starts at an offset.  Chunks are
added where there is a gap, dropped, or change their kind, and stay apart.
-/

namespace Chunks

variable {κ : Type} {size : κ → Nat} {chunks : Nat → Option κ}

def Apart (size : κ → Nat) (chunks : Nat → Option κ) : Prop :=
  ∀ o o' k k', chunks o = some k → chunks o' = some k' → o < o' → o + size k ≤ o'

/-- No chunk reaches into the bytes from `low` up to `high`. -/
def Gap (size : κ → Nat) (chunks : Nat → Option κ) (low high : Nat) : Prop :=
  ∀ o k, chunks o = some k → o + size k ≤ low ∨ high ≤ o

theorem Gap.mono {low high low' high' : Nat} (gap : Gap size chunks low high)
    (above : low ≤ low') (below : high' ≤ high) :
    Gap size chunks low' high' := by
  intro o k here
  rcases gap o k here with before | behind
  · exact Or.inl (before.trans above)
  · exact Or.inr (below.trans behind)

theorem Apart.add {o : Nat} {k : κ} (apart : Apart size chunks)
    (gap : Gap size chunks o (o + size k)) :
    Apart size (Function.update chunks o (some k)) := by
  intro first second kind kind' here there before
  rw [Function.update_apply] at here there
  split at here
  · rename_i isNew
    split at there
    · rename_i alsoNew
      omega
    · cases here
      rcases gap second kind' there with left | right
      · omega
      · omega
  · split at there
    · rename_i isNew
      cases there
      rcases gap first kind here with left | right
      · omega
      · omega
    · exact apart first second kind kind' here there before

/-- A chunk at the upper end of a gap leaves the rest of it. -/
theorem Gap.add {low high : Nat} {k : κ} (gap : Gap size chunks low high)
    (fits : low + size k ≤ high) :
    Gap size (Function.update chunks (high - size k) (some k)) low (high - size k) := by
  intro o kind here
  rw [Function.update_apply] at here
  split at here
  · rename_i isNew
    exact Or.inr (Nat.le_of_eq isNew.symm)
  · rcases gap o kind here with before | behind
    · exact Or.inl before
    · exact Or.inr (by omega)

theorem Apart.drop (apart : Apart size chunks) (o : Nat) :
    Apart size (Function.update chunks o none) := by
  intro first second kind kind' here there before
  rw [Function.update_apply] at here there
  split at here
  · cases here
  · split at there
    · cases there
    · exact apart first second kind kind' here there before

theorem Apart.gap_drop {o : Nat} {k : κ} (apart : Apart size chunks) (here : chunks o = some k) :
    Gap size (Function.update chunks o none) o (o + size k) := by
  intro other kind there
  rw [Function.update_apply] at there
  split at there
  · cases there
  · rename_i different
    rcases Nat.lt_or_gt_of_ne different with before | behind
    · exact Or.inl (apart other o kind k there here before)
    · exact Or.inr (apart o other k kind here there behind)

theorem Apart.retag {o : Nat} {k k' : κ} (apart : Apart size chunks)
    (here : chunks o = some k) (same : size k' = size k) :
    Apart size (Function.update chunks o (some k')) := by
  have gap := apart.gap_drop here
  rw [← same] at gap
  have added := (apart.drop o).add gap
  rwa [Function.update_idem] at added

def Separate (first second : Nat × Nat) : Prop :=
  first.1 + first.2 ≤ second.1 ∨ second.1 + second.2 ≤ first.1

def total (lengths : List Nat) : Nat := lengths.foldr (fun length sum => length + sum) 0

theorem total_cons (length : Nat) (lengths : List Nat) :
    total (length :: lengths) = length + total lengths := rfl

theorem total_perm {lengths lengths' : List Nat}
    (perm : lengths.Perm lengths') : total lengths = total lengths' := by
  apply perm.foldr_eq'
  intro first _ second _ sum
  omega

private def covered (intervals : List (Nat × Nat)) : Finset Nat :=
  match intervals with
  | [] => ∅
  | interval :: intervals =>
    Finset.Ico interval.1 (interval.1 + interval.2) ∪ covered intervals

variable {intervals : List (Nat × Nat)}

private theorem mem_covered {i : Nat} (member : i ∈ covered intervals) :
    ∃ interval ∈ intervals, interval.1 ≤ i ∧ i < interval.1 + interval.2 := by
  induction intervals with
  | nil => exact absurd member (Finset.notMem_empty i)
  | cons interval intervals ih =>
    rcases Finset.mem_union.mp member with inside | later
    · exact ⟨interval, List.mem_cons_self, Finset.mem_Ico.mp inside⟩
    · have ⟨other, isMember, bounds⟩ := ih later
      exact ⟨other, List.mem_cons_of_mem _ isMember, bounds⟩

private theorem card_covered (apart : intervals.Pairwise Separate) :
    (covered intervals).card = total (intervals.map Prod.snd) := by
  induction apart with
  | nil => rfl
  | @cons interval intervals others _ ih =>
    have separate : Disjoint (Finset.Ico interval.1 (interval.1 + interval.2))
        (covered intervals) := by
      rw [Finset.disjoint_left]
      intro i inside later
      have ⟨other, isMember, bounds⟩ := mem_covered later
      have ends := Finset.mem_Ico.mp inside
      rcases others other isMember with before | behind
      · omega
      · omega
    rw [covered, Finset.card_union_of_disjoint separate, ih, Nat.card_Ico, List.map_cons,
      total_cons, Nat.add_sub_cancel_left]

/-- Intervals that lie apart below a bound take no more room than that. -/
theorem sum_lengths_le {bound : Nat} (apart : intervals.Pairwise Separate)
    (inside : ∀ interval ∈ intervals, interval.1 + interval.2 ≤ bound) :
    total (intervals.map Prod.snd) ≤ bound := by
  have within : covered intervals ⊆ Finset.range bound := by
    intro i member
    have ⟨interval, isMember, bounds⟩ := mem_covered member
    have ends := inside interval isMember
    rw [Finset.mem_range]
    omega
  have cards := Finset.card_le_card within
  rwa [card_covered apart, Finset.card_range] at cards

end Chunks

end Coast
