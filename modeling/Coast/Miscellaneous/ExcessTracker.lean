import Coast.Library.Runs
import Mathlib.Algebra.Ring.Nat
import Mathlib.Data.Nat.Log

/-!
# Trackers for payloads that no bucket has

The pool books a payload that is too large for its buckets on a tracker of the
payload's size class.  The list of trackers starts with a root that has none.
-/

namespace Coast

open Option Nat

structure ExcessTrackerElt where
  fpTracker : Option Nat
  fulPayloadSize : Nat

namespace ExcessTrackerElt

open List

def fgMinPayloadSize : Nat := 16

/-- How many bits a size has, and how many of them are set. -/
def bitLoop (ulWishSize lBitCnt lMaxBit : Nat) : Nat × Nat :=
  if 0 < ulWishSize then bitLoop (ulWishSize >>> 1) (lBitCnt + ulWishSize % 2) (lMaxBit + 1)
  else (lBitCnt, lMaxBit)
termination_by ulWishSize
decreasing_by
  rw [shiftRight_one]
  omega

/-- `1 << lMaxBit` has the type `int` and becomes a number of 64 bits; there is
no shift by 32 or more. -/
def shiftOne (lMaxBit : Nat) : Option Nat :=
  if lMaxBit < 31 then some (2 ^ lMaxBit)
  else if lMaxBit = 31 then some (2 ^ 64 - 2 ^ 31)
  else none

def getSizeToPowerOf2 (ulWishSize : Nat) : Option Nat :=
  let (lBitCnt, lMaxBit) := bitLoop ulWishSize 0 0
  shiftOne (if lBitCnt = 1 then lMaxBit - 1 else lMaxBit)

/-- The smallest size that is enough, if it is no more than twice as large. -/
def findLoop (ulPayloadSize : Nat) : List ExcessTrackerElt → Option Nat
  | [] => none
  | elt :: list =>
      if ulPayloadSize ≤ elt.fulPayloadSize then
        if max (elt.fulPayloadSize >>> 1) fgMinPayloadSize < ulPayloadSize then elt.fpTracker
        else none
      else findLoop ulPayloadSize list

def findTrackerForSize (ulPayloadSize : Nat) (list : List ExcessTrackerElt) : Option Nat :=
  findLoop (max ulPayloadSize fgMinPayloadSize) list

def insertLoop (new : ExcessTrackerElt) : List ExcessTrackerElt → List ExcessTrackerElt
  | [] => [new]
  | elt :: list =>
      if 0 < elt.fulPayloadSize ∧ elt.fulPayloadSize ≤ new.fulPayloadSize then
        elt :: insertLoop new list
      else new :: elt :: list

/-- A root without a tracker gets the values, without what comes after it. -/
def insertTrackerForSize (pTracker ulPayloadSize : Nat) :
    List ExcessTrackerElt → List ExcessTrackerElt
  | [] => []
  | root :: list =>
      if root.fulPayloadSize = 0 then [⟨some pTracker, max ulPayloadSize fgMinPayloadSize⟩]
      else insertLoop ⟨some pTracker, max ulPayloadSize fgMinPayloadSize⟩ (root :: list)

/-- The trackers made so far are the numbers below `made`; a call is the size
and the tracker that it got. -/
structure Trackers where
  list : List ExcessTrackerElt
  made : Nat
  calls : List (Nat × Nat)

def Trackers.start : Trackers := ⟨[⟨none, 0⟩], 0, []⟩

def wishSize (ulPayloadSize : Nat) : Option Nat :=
  (getSizeToPowerOf2 ulPayloadSize).map (max · fgMinPayloadSize)

def trackerOf (s : Trackers) (ulPayloadSize : Nat) : Option Trackers := do
  let ulWishSize ← wishSize ulPayloadSize
  match findTrackerForSize ulWishSize s.list with
  | some tracker => some { s with calls := (ulPayloadSize, tracker) :: s.calls }
  | none => some ⟨insertTrackerForSize s.made ulWishSize s.list, s.made + 1,
      (ulPayloadSize, s.made) :: s.calls⟩

/-- The least power of two from 16 on that has room for the size. -/
def sizeClass (size : Nat) : Nat := max 16 (2 ^ Nat.clog 2 size)

theorem bitLoop_spec (n b m : Nat) : 0 < n →
    ∃ p k, bitLoop n b m = (b + p, m + k + 1) ∧ 2 ^ k ≤ n ∧ n < 2 ^ (k + 1) ∧
      1 ≤ p ∧ (p = 1 ↔ n = 2 ^ k) := by
  fun_induction bitLoop n b m with
  | case1 n b m positive ih =>
    intro _
    rw [shiftRight_one] at ih ⊢
    rcases (n / 2).eq_zero_or_pos with none | more
    · have one : n = 1 := by omega
      refine ⟨1, 0, ?_, ?_⟩
      · rw [none, one, bitLoop, if_neg (by omega)]
      · simp [one]
    · rcases ih more with ⟨p, k, loop, low, high, some, single⟩
      refine ⟨n % 2 + p, k + 1, ?_, ?_⟩
      · rw [loop]
        congr 1 <;> omega
      · rw [Nat.pow_succ] at high ⊢
        rw [Nat.pow_succ]
        omega
  | case2 n b m => omega

theorem getSizeToPowerOf2_eq (n : Nat) : getSizeToPowerOf2 n = shiftOne (Nat.clog 2 n) := by
  rcases n.eq_zero_or_pos with rfl | positive
  · rw [getSizeToPowerOf2, bitLoop, if_neg (by omega), clog_zero_right]
    rfl
  · rcases bitLoop_spec n 0 0 positive with ⟨p, k, loop, low, high, _, single⟩
    simp only [getSizeToPowerOf2, loop, Nat.zero_add]
    congr 1
    by_cases exact : n = 2 ^ k
    · rw [if_pos (single.mpr exact), exact, clog_pow 2 k (by omega), Nat.add_sub_cancel]
    · rw [if_neg (by omega)]
      apply le_antisymm
      · exact (Nat.lt_clog_iff_pow_lt (by omega)).mpr (by omega)
      · exact Nat.clog_le_of_le_pow (by omega)

theorem shiftOne_double {e f a b : Nat} (less : e < f) (first : shiftOne e = some a)
    (second : shiftOne f = some b) : 2 * a ≤ b := by
  have grows : ∀ g, e < g → 2 * 2 ^ e ≤ 2 ^ g := by
    intro g more
    rw [Nat.mul_comm, ← Nat.pow_succ]
    exact Nat.pow_le_pow_right (by omega) more
  simp only [shiftOne] at first second
  split at second
  · cases second
    rw [if_pos (by omega)] at first
    cases first
    exact grows f less
  · split at second
    · cases second
      rw [if_pos (by omega)] at first
      cases first
      have top := grows 31 (by omega)
      omega
    · cases second

def Payload (size : Nat) : Prop := ∃ e, 4 ≤ e ∧ shiftOne e = some size

variable {size : Nat}

theorem Payload.le : Payload size → 16 ≤ size := by
  rintro ⟨e, four, shift⟩
  rcases eq_or_lt_of_le four with rfl | more
  · cases shift
    exact le_refl 16
  · have double := shiftOne_double more rfl shift
    omega

theorem Payload.fits_iff {a b : Nat} (first : Payload a) (second : Payload b) (le : a ≤ b) :
    max (b >>> 1) fgMinPayloadSize < a ↔ a = b ∧ a ≠ 16 := by
  have low := first.le
  have low' := second.le
  rw [shiftRight_one, fgMinPayloadSize]
  rcases first with ⟨e, _, shift⟩
  rcases second with ⟨f, _, shift'⟩
  rcases lt_trichotomy e f with less | rfl | more
  · have double := shiftOne_double less shift shift'
    omega
  · rw [shift] at shift'
    cases shift'
    omega
  · have double := shiftOne_double more shift' shift
    omega

theorem wishSize_eq (n : Nat) : wishSize n = shiftOne (max 4 (Nat.clog 2 n)) := by
  rw [wishSize, getSizeToPowerOf2_eq]
  rcases lt_or_ge (Nat.clog 2 n) 4 with small | large
  · rw [Nat.max_eq_left (by omega)]
    revert small
    generalize Nat.clog 2 n = k
    revert k
    decide
  · rw [Nat.max_eq_right large]
    rcases found : shiftOne (Nat.clog 2 n) with _ | w
    · rfl
    · have low : 16 ≤ w := Payload.le ⟨_, large, found⟩
      exact congrArg some (Nat.max_eq_left low)

variable {n w : Nat}

theorem wishSize_payload (wish : wishSize n = some w) : Payload w :=
  ⟨_, le_max_left .., wishSize_eq n ▸ wish⟩

theorem wishSize_isSome : (∃ w, wishSize n = some w) ↔ n ≤ 2 ^ 31 := by
  rw [← clog_le_iff_le_pow (by omega : 1 < 2), wishSize_eq, shiftOne]
  split
  · simp
    omega
  · split
    · simp
      omega
    · simp
      omega

theorem wishSize_eq_iff {m v : Nat} (first : wishSize m = some v)
    (second : wishSize n = some w) : v = w ↔ sizeClass m = sizeClass n := by
  have power : ∀ k, max 16 (2 ^ k) = 2 ^ max 4 k := by
    intro k
    rcases le_total 4 k with more | less
    · rw [Nat.max_eq_right more]
      exact Nat.max_eq_right (Nat.pow_le_pow_right (n := 2) (by omega) more)
    · rw [Nat.max_eq_left less]
      exact Nat.max_eq_left (Nat.pow_le_pow_right (n := 2) (by omega) less)
  have low := (wishSize_payload first).le
  have low' := (wishSize_payload second).le
  rw [wishSize_eq] at first second
  rw [sizeClass, sizeClass, power, power]
  rcases lt_trichotomy (max 4 (Nat.clog 2 m)) (max 4 (Nat.clog 2 n)) with less | same | more
  · have double := shiftOne_double less first second
    have other := Nat.pow_lt_pow_right (a := 2) (by omega) less
    omega
  · rw [same] at first ⊢
    rw [first] at second
    simpa using second
  · have double := shiftOne_double more second first
    have other := Nat.pow_lt_pow_right (a := 2) (by omega) more
    omega

/-- The list is ordered by payload sizes, each of them once. -/
abbrev Sorted (list : List ExcessTrackerElt) : Prop :=
  list.Pairwise (·.fulPayloadSize < ·.fulPayloadSize)

theorem findLoop_iff {w tracker : Nat} (payload : Payload w) :
    ∀ {list : List ExcessTrackerElt}, Sorted list →
      (∀ elt ∈ list, elt = ⟨none, 0⟩ ∨ Payload elt.fulPayloadSize) →
      (findLoop w list = some tracker ↔
        w ≠ 16 ∧ ∃ elt ∈ list, elt.fulPayloadSize = w ∧ elt.fpTracker = some tracker)
  | [], _, _ => by simp [findLoop]
  | elt :: list, sorted, sizes => by
      rw [Sorted, pairwise_cons] at sorted
      rw [forall_mem_cons] at sizes
      have low := payload.le
      rw [findLoop]
      split
      · next le =>
        have later : ∀ other ∈ list, other.fulPayloadSize ≠ w := by
          intro other mem
          have greater := sorted.1 other mem
          omega
        have fits : Payload elt.fulPayloadSize := by
          rcases sizes.1 with rfl | fits
          · simp at le
            omega
          · exact fits
        simp only [payload.fits_iff fits le]
        grind
      · next more =>
        rw [findLoop_iff payload sorted.2 sizes.2]
        have other : elt.fulPayloadSize ≠ w := by omega
        simp [other]

variable {list : List ExcessTrackerElt}

theorem mem_insertLoop {new elt : ExcessTrackerElt} :
    elt ∈ insertLoop new list ↔ elt = new ∨ elt ∈ list := by
  fun_induction insertLoop new list <;> grind

theorem insertLoop_sorted {new : ExcessTrackerElt}
    (sorted : Sorted list) (positive : ∀ elt ∈ list, 0 < elt.fulPayloadSize) :
    Sorted (insertLoop new list) ↔ ∀ elt ∈ list, elt.fulPayloadSize ≠ new.fulPayloadSize := by
  fun_induction insertLoop new list with
  | case1 => simp [Sorted]
  | case2 elt list before ih =>
    rw [Sorted, pairwise_cons] at sorted ⊢
    rw [forall_mem_cons] at positive ⊢
    rw [← ih sorted.2 positive.2]
    simp only [mem_insertLoop, forall_eq_or_imp]
    have rest := sorted.1
    grind
  | case3 elt list before =>
    have smaller : new.fulPayloadSize < elt.fulPayloadSize := by
      have first := positive elt (mem_cons_self ..)
      omega
    constructor
    · intro all other mem
      exact ne_of_gt ((pairwise_cons.mp all).1 other mem)
    · intro _
      refine pairwise_cons.mpr ⟨?_, sorted⟩
      rintro other (_ | ⟨_, mem⟩)
      · exact smaller
      · exact lt_trans smaller ((pairwise_cons.mp sorted).1 other mem)

/-- The element of a call has the call's tracker and its wish size. -/
structure Tracked (s : Trackers) : Prop where
  sorted : Sorted s.list
  shape : s.list = [⟨none, 0⟩] ∨ s.list ≠ [] ∧ ∀ elt ∈ s.list, Payload elt.fulPayloadSize ∧
    ∃ tracker < s.made, elt.fpTracker = some tracker
  distinct : ∀ elt ∈ s.list, ∀ other ∈ s.list, elt.fpTracker = other.fpTracker → elt = other
  booked : ∀ call ∈ s.calls, ∃ elt ∈ s.list,
    elt.fpTracker = some call.2 ∧ wishSize call.1 = some elt.fulPayloadSize

theorem start_tracked : Tracked .start where
  sorted := pairwise_singleton ..
  shape := .inl rfl
  distinct := by simp [Trackers.start]
  booked := by simp [Trackers.start]

/-- The size is one that `int` can shift to, and for a size of at most 16
there is no tracker yet. -/
def Meets (s : Trackers) (size : Nat) : Prop :=
  size ≤ 2 ^ 31 ∧ (size ≤ 16 → ∀ elt ∈ s.list, elt.fulPayloadSize ≠ 16)

/-- The list is sorted without duplicates, and two calls have got the same
tracker exactly if their sizes are of one class. -/
def Booked (s : Trackers) : Prop :=
  Sorted s.list ∧ ∀ call ∈ s.calls, ∀ other ∈ s.calls,
    call.2 = other.2 ↔ sizeClass call.1 = sizeClass other.1

variable {s : Trackers}

theorem Tracked.sizes (tracked : Tracked s) :
    ∀ elt ∈ s.list, elt = ⟨none, 0⟩ ∨ Payload elt.fulPayloadSize := by
  intro elt mem
  rcases tracked.shape with root | ⟨_, all⟩
  · rw [root, mem_singleton] at mem
    exact .inl mem
  · exact .inr (all elt mem).1

theorem same_of_sorted (sorted : Sorted list)
    {elt other : ExcessTrackerElt} (mem : elt ∈ list) (also : other ∈ list)
    (size : elt.fulPayloadSize = other.fulPayloadSize) : elt = other := by
  induction list <;> grind [pairwise_cons]

theorem Tracked.good (tracked : Tracked s) : Booked s := by
  refine ⟨tracked.sorted, ?_⟩
  intro call mem other also
  rcases tracked.booked call mem with ⟨elt, inside, has, wish⟩
  rcases tracked.booked other also with ⟨elt', inside', has', wish'⟩
  rw [← wishSize_eq_iff wish wish']
  constructor
  · intro same
    rw [← same, ← has] at has'
    rw [tracked.distinct elt inside elt' inside' has'.symm]
  · intro same
    rw [same_of_sorted tracked.sorted inside inside' same, has'] at has
    exact (Option.some.inj has).symm

theorem wishSize_least (wish : wishSize n = some w) : w = 16 ↔ n ≤ 16 := by
  rw [wishSize_eq] at wish
  rw [show 16 = 2 ^ 4 from rfl, ← clog_le_iff_le_pow Nat.one_lt_two]
  rcases lt_or_ge 4 (Nat.clog 2 n) with more | less
  · have double := shiftOne_double (e := 4) (by omega) rfl wish
    omega
  · rw [Nat.max_eq_left less] at wish
    cases wish
    exact iff_of_true rfl less

theorem Tracked.insert (tracked : Tracked s) (payload : Payload w) :
    ∃ held, insertTrackerForSize s.made w s.list = insertLoop ⟨some s.made, w⟩ held ∧
      Sorted held ∧ (∀ elt ∈ s.list, elt = ⟨none, 0⟩ ∨ elt ∈ held) ∧
      ∀ elt ∈ held, elt ∈ s.list ∧ Payload elt.fulPayloadSize ∧
        ∃ tracker < s.made, elt.fpTracker = some tracker := by
  have same : max w fgMinPayloadSize = w := Nat.max_eq_left payload.le
  rcases tracked.shape with root | ⟨nonempty, all⟩
  · refine ⟨[], ?_, .nil, ?_, by simp⟩
    · simp [root, insertTrackerForSize, insertLoop, same]
    · simp [root]
  · refine ⟨s.list, ?_, tracked.sorted, fun elt mem => .inr mem, fun elt mem => ⟨mem, all elt mem⟩⟩
    rcases exists_cons_of_ne_nil nonempty with ⟨root, list, split⟩
    have low := (all root (split ▸ mem_cons_self ..)).1.le
    rw [split, insertTrackerForSize, if_neg (by omega), same]

/-- What `operator[]` does: it gives the tracker of the wish size, or makes one
where there is none and where the wish size is 16. -/
theorem trackerOf_cases {after : Trackers} (tracked : Tracked s)
    (steps : trackerOf s size = some after) : ∃ w, wishSize size = some w ∧
      ((w ≠ 16 ∧ ∃ elt ∈ s.list, elt.fulPayloadSize = w ∧ ∃ tracker, elt.fpTracker = some tracker ∧
          after = { s with calls := (size, tracker) :: s.calls }) ∨
        (w ≠ 16 → ∀ elt ∈ s.list, elt.fulPayloadSize ≠ w) ∧
          after = ⟨insertTrackerForSize s.made w s.list, s.made + 1,
            (size, s.made) :: s.calls⟩) := by
  rcases bind_eq_some_iff.mp steps with ⟨w, wish, rest⟩
  have payload := wishSize_payload wish
  have find : findTrackerForSize w s.list = findLoop w s.list :=
    congrArg (findLoop · s.list) (Nat.max_eq_left payload.le)
  rw [find] at rest
  refine ⟨w, wish, ?_⟩
  rcases found : findLoop w s.list with _ | tracker
  · rw [found] at rest
    refine .inr ⟨?_, (Option.some.inj rest).symm⟩
    intro other elt mem size
    rcases tracked.shape with root | ⟨_, all⟩
    · have low := payload.le
      rw [root, mem_singleton] at mem
      rw [← size, mem] at low
      exact absurd low (by decide)
    · rcases (all elt mem).2 with ⟨tracker, _, has⟩
      rw [(findLoop_iff payload tracked.sorted tracked.sizes).mpr ⟨other, elt, mem, size, has⟩]
        at found
      cases found
  · rw [found] at rest
    rcases (findLoop_iff payload tracked.sorted tracked.sizes).mp found with
      ⟨other, elt, mem, size, has⟩
    exact .inl ⟨other, elt, mem, size, tracker, has, (Option.some.inj rest).symm⟩

theorem trackerOf_tracked (s : Trackers) (size : Nat) (after : Trackers) (tracked : Tracked s)
    (meets : Meets s size) (steps : trackerOf s size = some after) : Tracked after := by
  rcases trackerOf_cases tracked steps with ⟨w, wish, found | ⟨fresh, rfl⟩⟩
  · rcases found with ⟨_, elt, mem, rfl, tracker, has, rfl⟩
    refine ⟨tracked.sorted, tracked.shape, tracked.distinct, ?_⟩
    exact forall_mem_cons.mpr ⟨⟨elt, mem, has, wish⟩, tracked.booked⟩
  · have payload := wishSize_payload wish
    rcases tracked.insert payload with ⟨held, insert, sorted, covers, all⟩
    have free : ∀ elt ∈ held, elt.fulPayloadSize ≠ w := by
      intro elt mem
      by_cases least : w = 16
      · exact least ▸ meets.2 ((wishSize_least wish).mp least) elt (all elt mem).1
      · exact fresh least elt (all elt mem).1
    have other : ∀ elt ∈ held, elt.fpTracker ≠ some s.made := by
      intro elt mem same
      rcases (all elt mem).2.2 with ⟨tracker, below, has⟩
      rw [same] at has
      exact ne_of_gt below (Option.some.inj has)
    have positive : ∀ elt ∈ held, 0 < elt.fulPayloadSize := by
      intro elt mem
      have low := (all elt mem).2.1.le
      omega
    rw [insert]
    constructor
    · exact (insertLoop_sorted sorted positive).mpr free
    · refine .inr ⟨ne_nil_of_mem (mem_insertLoop.mpr (.inl rfl)), ?_⟩
      intro elt mem
      rcases mem_insertLoop.mp mem with rfl | mem
      · exact ⟨payload, s.made, lt_succ_self _, rfl⟩
      · rcases all elt mem with ⟨_, size, tracker, below, has⟩
        exact ⟨size, tracker, lt_succ_of_lt below, has⟩
    · intro elt mem elt' mem' same
      rcases mem_insertLoop.mp mem with rfl | mem <;> rcases mem_insertLoop.mp mem' with rfl | mem'
      · rfl
      · exact absurd same.symm (other elt' mem')
      · exact absurd same (other elt mem)
      · exact tracked.distinct elt (all elt mem).1 elt' (all elt' mem').1 same
    · refine forall_mem_cons.mpr ⟨⟨_, mem_insertLoop.mpr (.inl rfl), rfl, wish⟩, ?_⟩
      intro call mem
      rcases tracked.booked call mem with ⟨elt, inside, has, size⟩
      rcases covers elt inside with rfl | inside
      · cases has
      · exact ⟨elt, mem_insertLoop.mpr (.inr inside), has, size⟩

theorem not_booked_of_not_meets (s : Trackers) (size : Nat) (after : Trackers)
    (tracked : Tracked s) (misses : ¬ Meets s size) (steps : trackerOf s size = some after) :
    ¬ Booked after := by
  rintro ⟨sorts, _⟩
  rcases trackerOf_cases tracked steps with ⟨w, wish, cases⟩
  have least : w = 16 := by
    by_contra other
    have large := mt (wishSize_least wish).mpr other
    exact misses ⟨wishSize_isSome.mp ⟨w, wish⟩, fun small => absurd small large⟩
  rcases cases with ⟨other, _⟩ | ⟨_, rfl⟩
  · exact other least
  · rcases tracked.insert (wishSize_payload wish) with ⟨held, insert, sorted, covers, all⟩
    rw [insert, insertLoop_sorted sorted] at sorts
    · refine misses ⟨wishSize_isSome.mp ⟨w, wish⟩, ?_⟩
      intro _ elt mem size
      rcases covers elt mem with rfl | mem
      · cases size
      · exact sorts elt mem (size.trans least.symm)
    · intro elt mem
      have low := (all elt mem).2.1.le
      omega

theorem trackerOf_isSome (meets : Meets s size) :
    ∃ after, trackerOf s size = some after := by
  rcases wishSize_isSome.mpr meets.1 with ⟨w, wish⟩
  rw [trackerOf, wish]
  rcases found : findTrackerForSize w s.list with _ | tracker
  · exact ⟨_, by rw [bind_eq_bind, bind_some, found]⟩
  · exact ⟨_, by rw [bind_eq_bind, bind_some, found]⟩

theorem run_of_along {sizes : List Nat} (along : Runs.Along trackerOf Meets s sizes) :
    ∃ last, Runs.run trackerOf s sizes = some last := by
  induction sizes generalizing s with
  | nil => exact ⟨s, rfl⟩
  | cons size sizes ih =>
    rcases trackerOf_isSome along.1 with ⟨after, steps⟩
    rcases ih (along.2 after steps) with ⟨last, runs⟩
    exact ⟨last, bind_eq_some_iff.mpr ⟨after, steps, runs⟩⟩

/-- The list stays sorted without duplicates and the calls are booked by class
exactly if every size is one that `int` can shift to and no size of at most 16
comes after a tracker of 16 has been made: the search never takes that one. -/
theorem trackers_booked_iff (sizes : List Nat) :
    (∃ last, Runs.run trackerOf .start sizes = some last) ∧
        Runs.Always trackerOf Booked .start sizes ↔
      Runs.Along trackerOf Meets .start sizes := by
  constructor
  · rintro ⟨⟨last, runs⟩, always⟩
    exact (Runs.always_iff_along trackerOf_tracked (fun s inv => inv.good)
      not_booked_of_not_meets start_tracked runs).mp always
  · intro along
    rcases run_of_along along with ⟨last, runs⟩
    exact ⟨⟨last, runs⟩, (Runs.always_iff_along trackerOf_tracked (fun s inv => inv.good)
      not_booked_of_not_meets start_tracked runs).mpr along⟩

/-- Two allocations of one byte. -/
theorem not_trackers_booked : ¬ ∀ (sizes : List Nat) (last : Trackers),
    Runs.run trackerOf .start sizes = some last → Booked last := by
  intro all
  have runs : ∃ elts, Runs.run trackerOf .start [1, 1] = some ⟨elts, 2, [(1, 1), (1, 0)]⟩ := by
    simp [Runs.run, trackerOf, wishSize, getSizeToPowerOf2, bitLoop, shiftOne, Trackers.start,
      findTrackerForSize, findLoop, insertTrackerForSize, insertLoop, fgMinPayloadSize]
  rcases runs with ⟨elts, runs⟩
  have same := (all _ _ runs).2 (1, 1) (by simp) (1, 0) (by simp)
  exact absurd (same.mpr rfl) (by decide)

end ExcessTrackerElt

end Coast
