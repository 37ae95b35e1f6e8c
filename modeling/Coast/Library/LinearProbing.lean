import Mathlib.Data.List.Count
import Mathlib.Data.List.Perm.Subperm
import Mathlib.Data.Nat.Find
import Mathlib.Data.Nat.ModEq

/-!
# Linear probing

A table of buckets in which an entry is looked for from its home on, with
wrap around, until a free bucket ends the search.  A bucket whose entry was
deleted does not end it.
-/

namespace Coast.LinearProbing

/-- A bucket that was never used, was given up, or holds an entry. -/
inductive Bucket (α : Type) where
  | free
  | deleted
  | entry (a : α)
  deriving DecidableEq, Repr

/-- Walk over a circle of `n` places from a place on, to the first one that
stops the walk, at most `fuel` places. -/
def walk (n : Nat) (stop : Nat → Bool) : Nat → Nat → Option Nat
  | 0, _ => none
  | fuel + 1, place =>
    if stop place then some place
    else walk n stop fuel (if n ≤ place + 1 then place + 1 - n else place + 1)

def ahead (n home steps : Nat) : Nat := (home + steps) % n

variable {n : Nat}

theorem ahead_zero {home : Nat} (inside : home < n) :
    ahead n home 0 = home := Nat.mod_eq_of_lt inside

theorem ahead_lt (positive : 0 < n) (home steps : Nat) :
    ahead n home steps < n := Nat.mod_lt _ positive

variable {place : Nat}

private theorem next_eq (inside : place < n) :
    (if n ≤ place + 1 then place + 1 - n else place + 1) = ahead n place 1 := by
  unfold ahead
  split
  · have last : place + 1 = n := by omega
    rw [last, Nat.mod_self, Nat.sub_self]
  · rw [Nat.mod_eq_of_lt (by omega)]

theorem ahead_ahead (n home first second : Nat) :
    ahead n (ahead n home first) second = ahead n home (first + second) := by
  unfold ahead
  rw [Nat.mod_add_mod, Nat.add_assoc]

theorem exists_ahead {home : Nat} (homeInside : home < n)
    (inside : place < n) : ∃ steps, steps < n ∧ ahead n home steps = place := by
  by_cases behind : home ≤ place
  · refine ⟨place - home, by omega, ?_⟩
    unfold ahead
    rw [show home + (place - home) = place by omega, Nat.mod_eq_of_lt inside]
  · refine ⟨place + n - home, by omega, ?_⟩
    unfold ahead
    rw [show home + (place + n - home) = place + n by omega,
      Nat.add_mod_right, Nat.mod_eq_of_lt inside]

/-- Different numbers of steps within one turn lead to different places. -/
theorem ahead_injective {home first second : Nat}
    (firstInside : first < n) (secondInside : second < n)
    (same : ahead n home first = ahead n home second) : first = second := by
  unfold ahead at same
  have congruent : first ≡ second [MOD n] := Nat.ModEq.add_left_cancel' home same
  exact Nat.ModEq.eq_of_lt_of_lt congruent firstInside secondInside

variable {stop : Nat → Bool}

theorem walk_eq_some {steps : Nat} :
    ∀ {fuel home : Nat}, home < n → steps < fuel → stop (ahead n home steps) = true →
      (∀ earlier, earlier < steps → stop (ahead n home earlier) = false) →
      walk n stop fuel home = some (ahead n home steps) := by
  induction steps with
  | zero =>
    intro fuel home inside enough stops _
    obtain ⟨fuel, rfl⟩ : ∃ less, fuel = less + 1 := ⟨fuel - 1, by omega⟩
    rw [ahead_zero inside] at stops ⊢
    rw [walk, if_pos stops]
  | succ steps ih =>
    intro fuel home inside enough stops passes
    obtain ⟨fuel, rfl⟩ : ∃ less, fuel = less + 1 := ⟨fuel - 1, by omega⟩
    have here : stop home = false := by
      have first := passes 0 (by omega)
      rwa [ahead_zero inside] at first
    have shifted : ∀ k, ahead n (ahead n home 1) k = ahead n home (k + 1) := by
      intro k
      rw [ahead_ahead, Nat.add_comm]
    rw [walk, if_neg (by rw [here]; decide), next_eq inside,
      ih (ahead_lt (by omega) home 1) (by omega)
        (by rw [shifted]; exact stops)
        (fun earlier less => by
          rw [shifted]
          exact passes (earlier + 1) (by omega)), shifted]

/-- A walk that ends has passed only places that do not stop it. -/
theorem of_walk_eq_some :
    ∀ {fuel home : Nat}, home < n → walk n stop fuel home = some place →
      ∃ steps, steps < fuel ∧ place = ahead n home steps ∧ stop place = true ∧
        ∀ earlier, earlier < steps → stop (ahead n home earlier) = false := by
  intro fuel
  induction fuel with
  | zero =>
    intro home _ found
    cases found
  | succ fuel ih =>
    intro home inside found
    rw [walk] at found
    by_cases here : stop home = true
    · rw [if_pos here] at found
      cases found
      exact ⟨0, by omega, (ahead_zero inside).symm, here,
        fun earlier less => absurd less (by omega)⟩
    · rw [if_neg here, next_eq inside] at found
      obtain ⟨steps, less, rfl, stops, passes⟩ := ih (ahead_lt (by omega) home 1) found
      refine ⟨steps + 1, by omega, ?_, stops, ?_⟩
      · rw [ahead_ahead, Nat.add_comm]
      · intro earlier bounded
        cases earlier with
        | zero =>
          rw [ahead_zero inside]
          simpa using here
        | succ earlier =>
          have passed := passes earlier (by omega)
          rwa [ahead_ahead, Nat.add_comm] at passed

theorem of_walk_eq_none {home : Nat} (inside : home < n) (nowhere : walk n stop n home = none)
    {place : Nat} (placeInside : place < n) : stop place = false := by
  by_contra stops
  have stops : stop place = true := by simpa using stops
  obtain ⟨steps, less, same⟩ := exists_ahead inside placeInside
  -- the first step that stops the walk
  have first : ∃ steps, steps < n ∧ stop (ahead n home steps) = true :=
    ⟨steps, less, by rw [same]; exact stops⟩
  have least := Nat.find_spec first
  have found := walk_eq_some inside least.1 least.2 (fun earlier bounded => by
      have passed := Nat.find_min first bounded
      simpa [show earlier < n by omega] using passed)
  rw [nowhere] at found
  cases found

variable {α β : Type}

/-- An entry that is found from its home: no free bucket is before it. -/
def Reachable (table : List (Bucket α)) (home : Nat) (a : α) : Prop :=
  ∃ steps, steps < table.length ∧ table[ahead table.length home steps]? = some (.entry a) ∧
    ∀ earlier, earlier < steps → table[ahead table.length home earlier]? ≠ some .free

/-- The table holds exactly the members, each once and each where the search
from its home finds it. -/
structure Holds (table : List (Bucket α)) (home : α → Nat) (member : α → Prop) : Prop where
  home_lt : ∀ a, member a → home a < table.length
  member_of_entry : ∀ (place : Nat) (a : α), table[place]? = some (.entry a) → member a
  reachable : ∀ a, member a → Reachable table (home a) a
  once : ∀ (first second : Nat) (a : α),
    table[first]? = some (.entry a) → table[second]? = some (.entry a) → first = second

def Bucket.isEntry : Bucket α → Bool
  | .entry _ => true
  | _ => false

def used (table : List (Bucket α)) : Nat := table.countP Bucket.isEntry

def Bucket.content : Bucket α → Option α
  | .entry a => some a
  | _ => none

def entries (table : List (Bucket α)) : List α := table.filterMap Bucket.content

theorem used_eq_length_entries (table : List (Bucket α)) : used table = (entries table).length := by
  unfold used entries
  rw [List.length_filterMap_eq_countP]
  apply List.countP_congr
  intro bucket _
  cases bucket <;> simp [Bucket.isEntry, Bucket.content]

variable {table : List (Bucket α)}

theorem mem_entries {a : α} :
    a ∈ entries table ↔ ∃ place : Nat, table[place]? = some (.entry a) := by
  unfold entries
  rw [List.mem_filterMap]
  constructor
  · rintro ⟨bucket, isIn, content⟩
    cases bucket with
    | entry b =>
      cases content
      exact List.mem_iff_getElem?.mp isIn
    | free => cases content
    | deleted => cases content
  · rintro ⟨place, found⟩
    exact ⟨.entry a, List.mem_iff_getElem?.mpr ⟨place, found⟩, rfl⟩

theorem nodup_entries (once : ∀ (first second : Nat) (a : α),
      table[first]? = some (.entry a) → table[second]? = some (.entry a) → first = second) :
    (entries table).Nodup := by
  induction table with
  | nil => exact List.nodup_nil
  | cons bucket table ih =>
    have tail : (entries table).Nodup :=
      ih fun first second a foundFirst foundSecond =>
        Nat.succ.inj (once (first + 1) (second + 1) a foundFirst foundSecond)
    cases bucket with
    | free => exact tail
    | deleted => exact tail
    | entry a =>
      refine List.nodup_cons.mpr ⟨fun again => ?_, tail⟩
      obtain ⟨place, found⟩ := mem_entries.mp again
      cases once 0 (place + 1) a rfl found

variable {home : α → Nat} {member : α → Prop}

theorem Holds.mem_entries_iff (holds : Holds table home member) (a : α) :
    a ∈ entries table ↔ member a := by
  rw [mem_entries]
  constructor
  · rintro ⟨place, found⟩
    exact holds.member_of_entry place a found
  · intro isMember
    obtain ⟨steps, -, found, -⟩ := holds.reachable a isMember
    exact ⟨_, found⟩

/-- A table of numbers below a bound has at most so many entries. -/
theorem Holds.used_le {table : List (Bucket Nat)} {home : Nat → Nat}
    {member : Nat → Prop} (holds : Holds table home member) {bound : Nat}
    (bounded : ∀ a, member a → a < bound) : used table ≤ bound := by
  rw [used_eq_length_entries]
  have inside : entries table ⊆ List.range bound := by
    intro a isIn
    exact List.mem_range.mpr (bounded a ((holds.mem_entries_iff a).mp isIn))
  have short := List.Subperm.length_le ((nodup_entries holds.once).subperm inside)
  rwa [List.length_range] at short

theorem holds_replicate (n : Nat) (home : α → Nat) :
    Holds (List.replicate n .free) home (fun _ => False) where
  home_lt _ never := never.elim
  member_of_entry place a found := by
    obtain ⟨_, same⟩ := List.getElem?_eq_some_iff.mp found
    simp at same
  reachable _ never := never.elim
  once first second a found _ := by
    obtain ⟨_, same⟩ := List.getElem?_eq_some_iff.mp found
    simp at same

theorem used_replicate (n : Nat) : used (List.replicate n (Bucket.free : Bucket α)) = 0 := by
  simp [used, List.countP_replicate, Bucket.isEntry]

/-- What stops the search for a key: a free bucket, an entry with the key
and, when a place for a new entry is looked for, a deleted bucket. -/
def stops (isKey : α → Bool) (append : Bool) : Option (Bucket α) → Bool
  | some .free => true
  | some .deleted => append
  | some (.entry a) => isKey a
  | none => true

def search (table : List (Bucket α)) (isKey : α → Bool) (append : Bool) (home : Nat) : Option Nat :=
  walk table.length (fun place => stops isKey append table[place]?) table.length home

variable {isKey : α → Bool}

theorem search_lt {append : Bool} {home : Nat} (inside : home < table.length)
    (found : search table isKey append home = some place) :
    place < table.length := by
  obtain ⟨steps, -, rfl, -⟩ := of_walk_eq_some inside found
  exact ahead_lt (by omega) home steps

theorem search_member (holds : Holds table home member) {a : α} (isMember : member a)
    (hit : isKey a = true) (only : ∀ b, member b → isKey b = true → b = a) :
    ∃ place, search table isKey false (home a) = some place ∧ table[place]? = some (.entry a) := by
  obtain ⟨steps, less, found, path⟩ := holds.reachable a isMember
  have inside := holds.home_lt a isMember
  refine ⟨_, walk_eq_some inside less (by rw [found]; exact hit) ?_, found⟩
  intro earlier bounded
  have bucketInside := ahead_lt (by omega : 0 < table.length) (home a) earlier
  have notFree := path earlier bounded
  cases bucket : table[ahead table.length (home a) earlier]? with
  | none =>
    rw [List.getElem?_eq_none_iff] at bucket
    omega
  | some bucketHere =>
    cases bucketHere with
    | free => exact absurd bucket notFree
    | deleted => simp [stops]
    | entry b =>
      simp only [stops]
      by_contra stopped
      have hitB : isKey b = true := by simpa using stopped
      have same := only b (holds.member_of_entry _ b bucket) hitB
      subst same
      have where_ := holds.once _ _ b bucket found
      have equal := ahead_injective (by omega) less where_
      omega

/-- Without a member that has the key, no entry is found. -/
theorem search_absent (holds : Holds table home member) (absent : ∀ b, member b → isKey b = false)
    {append : Bool} {start : Nat} (inside : start < table.length)
    (found : search table isKey append start = some place) (a : α) :
    table[place]? ≠ some (.entry a) := by
  intro bucket
  obtain ⟨steps, -, -, stopped, -⟩ := of_walk_eq_some inside found
  rw [bucket] at stopped
  have hit : isKey a = true := stopped
  rw [absent a (holds.member_of_entry _ a bucket)] at hit
  cases hit

/-- There is a place for a new entry as long as a bucket has none. -/
theorem exists_search (isKey : α → Bool) {append : Bool} {start : Nat}
    (inside : start < table.length) (deleted : append = true ∨ Bucket.deleted ∉ table)
    (room : used table < table.length) :
    ∃ place, search table isKey append start = some place := by
  cases found : search table isKey append start with
  | some place => exact ⟨place, rfl⟩
  | none =>
    exfalso
    have all : ∀ bucket ∈ table, Bucket.isEntry bucket = true := by
      intro bucket isIn
      obtain ⟨place, less, same⟩ := List.getElem_of_mem isIn
      have passed := of_walk_eq_none inside found less
      rw [List.getElem?_eq_getElem less, same] at passed
      cases bucket with
      | free => cases passed
      | deleted =>
        rcases deleted with rfl | undeleted
        · cases passed
        · exact absurd isIn undeleted
      | entry a => rfl
    have full : used table = table.length := List.countP_eq_length.mpr all
    omega

/-! ## Changing a table -/

/-- An entry is found again after it was inserted. -/
theorem Holds.insert (holds : Holds table home member) {a : α} (new : ¬ member a)
    (inside : home a < table.length) (isKey : α → Bool) (absent : ∀ b, member b → isKey b = false)
    {append : Bool} (found : search table isKey append (home a) = some place) :
    Holds (table.set place (.entry a)) home (fun b => member b ∨ b = a) where
  home_lt b isMember := by
    rw [List.length_set]
    rcases isMember with old | rfl
    · exact holds.home_lt b old
    · exact inside
  member_of_entry p b bucket := by
    rw [List.getElem?_set] at bucket
    split at bucket
    · split at bucket
      · cases bucket
        exact Or.inr rfl
      · cases bucket
    · exact Or.inl (holds.member_of_entry p b bucket)
  reachable b isMember := by
    have placeInside := search_lt inside found
    unfold Reachable
    rw [List.length_set]
    rcases isMember with old | rfl
    · obtain ⟨steps, less, bucket, path⟩ := holds.reachable b old
      have notHere : place ≠ ahead table.length (home b) steps := by
        rintro rfl
        exact search_absent holds absent inside found b bucket
      refine ⟨steps, less, ?_, ?_⟩
      · rw [List.getElem?_set_ne notHere]
        exact bucket
      · intro earlier bounded
        by_cases here : place = ahead table.length (home b) earlier
        · rw [← here, List.getElem?_set_self placeInside]
          simp
        · rw [List.getElem?_set_ne here]
          exact path earlier bounded
    · obtain ⟨steps, less, rfl, -, passes⟩ := of_walk_eq_some inside found
      refine ⟨steps, less, List.getElem?_set_self placeInside, ?_⟩
      intro earlier bounded
      have different : ahead table.length (home b) steps ≠ ahead table.length (home b) earlier := by
        intro same
        have equal := ahead_injective less (by omega) same
        omega
      rw [List.getElem?_set_ne different]
      intro free
      have passed := passes earlier bounded
      rw [free] at passed
      cases passed
  once first second b bucketFirst bucketSecond := by
    have placeInside := search_lt inside found
    have onlyHere : ∀ p, (table.set place (.entry a))[p]? =
        some (.entry b) → (p = place ∧ b = a) ∨ (p ≠ place ∧ table[p]? = some (.entry b)) := by
      intro p bucket
      by_cases here : place = p
      · subst here
        rw [List.getElem?_set_self placeInside] at bucket
        cases bucket
        exact Or.inl ⟨rfl, rfl⟩
      · rw [List.getElem?_set_ne here] at bucket
        exact Or.inr ⟨fun same => here same.symm, bucket⟩
    rcases onlyHere first bucketFirst with ⟨rfl, rfl⟩ | ⟨-, old⟩
    · rcases onlyHere second bucketSecond with ⟨rfl, -⟩ | ⟨-, old⟩
      · rfl
      · exact absurd (holds.member_of_entry second b old) new
    · rcases onlyHere second bucketSecond with ⟨rfl, rfl⟩ | ⟨-, other⟩
      · exact absurd (holds.member_of_entry first b old) new
      · exact holds.once first second b old other

theorem used_set_le (table : List (Bucket α)) (place : Nat) (a : α) :
    used (table.set place (.entry a)) ≤ used table + 1 := by
  induction table generalizing place with
  | nil => simp [used]
  | cons bucket table ih =>
    cases place with
    | zero =>
      simp only [used, List.set_cons_zero, List.countP_cons, Bucket.isEntry, if_true]
      omega
    | succ place =>
      have tail := ih place
      simp only [used, List.set_cons_succ, List.countP_cons] at tail ⊢
      omega

/-- Entries that get no new name are given up. -/
def renameBucket (name : α → Option β) : Bucket α → Bucket β
  | .free => .free
  | .deleted => .deleted
  | .entry a =>
    match name a with
    | some b => .entry b
    | none => .deleted

theorem renameBucket_eq_entry {name : α → Option β} {bucket : Bucket α}
    {b : β} (same : renameBucket name bucket = .entry b) :
    ∃ a, bucket = .entry a ∧ name a = some b := by
  cases bucket with
  | free => cases same
  | deleted => cases same
  | entry a =>
    refine ⟨a, rfl, ?_⟩
    cases named : name a with
    | none => simp [renameBucket, named] at same
    | some c =>
      simp only [renameBucket, named, Bucket.entry.injEq] at same
      rw [same]

theorem renameBucket_eq_free {name : α → Option β} {bucket : Bucket α}
    (same : renameBucket name bucket = .free) : bucket = .free := by
  cases bucket with
  | free => rfl
  | deleted => cases same
  | entry a =>
    exfalso
    cases named : name a <;> simp [renameBucket, named] at same

theorem Holds.rename (holds : Holds table home member) (name : α → Option β) (home' : β → Nat)
    (sameHome : ∀ a b, member a → name a = some b → home' b = home a)
    (injective : ∀ a a' b, name a = some b → name a' = some b → a = a') :
    Holds (table.map (renameBucket name)) home' (fun b => ∃ a, member a ∧ name a = some b) where
  home_lt b isMember := by
    obtain ⟨a, old, named⟩ := isMember
    rw [sameHome a b old named, List.length_map]
    exact holds.home_lt a old
  member_of_entry place b bucket := by
    rw [List.getElem?_map] at bucket
    obtain ⟨old, found, renamed⟩ := Option.map_eq_some_iff.mp bucket
    obtain ⟨a, rfl, named⟩ := renameBucket_eq_entry renamed
    exact ⟨a, holds.member_of_entry place a found, named⟩
  reachable b isMember := by
    obtain ⟨a, old, named⟩ := isMember
    obtain ⟨steps, less, found, path⟩ := holds.reachable a old
    unfold Reachable
    rw [List.length_map, sameHome a b old named]
    refine ⟨steps, less, ?_, ?_⟩
    · rw [List.getElem?_map, found]
      simp [renameBucket, named]
    · intro earlier bounded free
      rw [List.getElem?_map] at free
      obtain ⟨bucket, there, renamed⟩ := Option.map_eq_some_iff.mp free
      rw [renameBucket_eq_free renamed] at there
      exact path earlier bounded there
  once first second b bucketFirst bucketSecond := by
    rw [List.getElem?_map] at bucketFirst bucketSecond
    obtain ⟨oldFirst, foundFirst, renamedFirst⟩ := Option.map_eq_some_iff.mp bucketFirst
    obtain ⟨oldSecond, foundSecond, renamedSecond⟩ := Option.map_eq_some_iff.mp bucketSecond
    obtain ⟨a, rfl, named⟩ := renameBucket_eq_entry renamedFirst
    obtain ⟨a', rfl, named'⟩ := renameBucket_eq_entry renamedSecond
    cases injective a a' b named named'
    exact holds.once first second a foundFirst foundSecond

theorem used_rename_le (table : List (Bucket α)) (name : α → Option β) :
    used (table.map (renameBucket name)) ≤ used table := by
  unfold used
  rw [List.countP_map]
  apply List.countP_mono_left
  intro bucket _ renamed
  cases bucket with
  | entry _ => rfl
  | free => cases renamed
  | deleted => cases renamed

theorem Holds.congr {member' : α → Prop} (holds : Holds table home member) (home' : α → Nat)
    (sameMember : ∀ a, member a ↔ member' a) (sameHome : ∀ a, member a → home' a = home a) :
    Holds table home' member' where
  home_lt a isMember := by
    have old := (sameMember a).mpr isMember
    rw [sameHome a old]
    exact holds.home_lt a old
  member_of_entry place a bucket := (sameMember a).mp (holds.member_of_entry place a bucket)
  reachable a isMember := by
    have old := (sameMember a).mpr isMember
    rw [sameHome a old]
    exact holds.reachable a old
  once := holds.once

end Coast.LinearProbing
