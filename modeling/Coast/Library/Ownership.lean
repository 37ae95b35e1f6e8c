import Mathlib.Algebra.Order.BigOperators.Group.Finset
import Mathlib.Data.List.Nodup

/-!
# Locks and the clients that hold them

A lock records its holder, or its readers; where a client is says whether it
holds the lock.  The two agree after every step of one client that takes the
lock, releases it or leaves it alone.
-/

namespace Coast

namespace Ownership

variable {ι : Type}

/-- What one client can do to a lock and to its own hold on it. -/
inductive OwnStep (me : ι) : Option ι → Bool → Option ι → Bool → Prop
  | keep (lock : Option ι) (held : Bool) : OwnStep me lock held lock held
  | take : OwnStep me none false (some me) true
  | release (lock : Option ι) : OwnStep me lock true none false

def Owns (lock : Option ι) (holds : ι → Bool) : Prop := ∀ c, lock = some c ↔ holds c = true

variable {holds : ι → Bool}

theorem Owns.step {me : ι} {lock lock' : Option ι} {holds' : ι → Bool}
    (owns : Owns lock holds) (others : ∀ c, c ≠ me → holds' c = holds c)
    (steps : OwnStep me lock (holds me) lock' (holds' me)) :
    Owns lock' holds' := by
  generalize before : holds me = held at steps
  generalize after : holds' me = held' at steps
  intro c
  by_cases same : c = me
  · rw [same, after]
    cases steps with
    | keep => rw [← before]; exact owns me
    | take => exact iff_of_true rfl rfl
    | release => exact iff_of_false nofun nofun
  · rw [others c same]
    cases steps with
    | keep => exact owns c
    | take =>
      refine iff_of_false ?_ ?_
      · intro taken
        exact same (Option.some.inj taken).symm
      · exact fun holding => nomatch (owns c).mpr holding
    | release =>
      refine iff_of_false nofun ?_
      intro holding
      have held := (owns me).mpr before
      rw [(owns c).mpr holding] at held
      exact same (Option.some.inj held)

theorem Owns.unique {lock : Option ι} (owns : Owns lock holds) {c c' : ι} (first : holds c = true)
    (second : holds c' = true) : c = c' := by
  have taken := (owns c).mpr first
  rw [(owns c').mpr second] at taken
  exact (Option.some.inj taken).symm

theorem Owns.free (none' : ∀ c, holds c = false) : Owns none holds := by
  intro c
  rw [none' c]
  exact iff_of_false nofun nofun

theorem Owns.eq_none {lock : Option ι} (owns : Owns lock holds) (none' : ∀ c, holds c = false) :
    lock = none := by
  cases lock with
  | none => rfl
  | some c =>
    have held := (owns c).mp rfl
    rw [none' c] at held
    cases held

/-- A lock does not keep everybody waiting: somebody goes on, or nobody has it
and nobody wants it. -/
theorem Owns.goesOn {lock : Option ι} (owns : Owns lock holds) {goes wants : ι → Prop}
    (holder : ∀ c, holds c = true → goes c) (entrant : lock = none → ∀ c, wants c → goes c) :
    (∃ c, goes c) ∨ ∀ c, holds c = false ∧ ¬ wants c := by
  by_cases stuck : ∃ c, goes c
  · exact .inl stuck
  · have free : ∀ c, holds c = false := fun c =>
      Bool.eq_false_iff.mpr fun held => stuck ⟨c, holder c held⟩
    exact .inr fun c =>
      ⟨free c, fun waiting => stuck ⟨c, entrant (owns.eq_none free) c waiting⟩⟩

/-- What one client can do to the readers of a lock. -/
inductive ShareStep [DecidableEq ι] (me : ι) : List ι → Bool → List ι → Bool → Prop
  | keep (readers : List ι) (held : Bool) : ShareStep me readers held readers held
  | enter (readers : List ι) : ShareStep me readers false (me :: readers) true
  | leave (readers : List ι) : ShareStep me readers true (readers.erase me) false

structure Shares (readers : List ι) (holds : ι → Bool) : Prop where
  nodup : readers.Nodup
  mem : ∀ c, c ∈ readers ↔ holds c = true

theorem Shares.step [DecidableEq ι] {me : ι} {readers readers' : List ι}
    {holds' : ι → Bool} (shares : Shares readers holds) (others : ∀ c, c ≠ me → holds' c = holds c)
    (steps : ShareStep me readers (holds me) readers' (holds' me)) :
    Shares readers' holds' := by
  generalize before : holds me = held at steps
  generalize after : holds' me = held' at steps
  have sameOf : ∀ c, c ≠ me → (c ∈ readers ↔ holds' c = true) := by
    intro c different
    rw [others c different]
    exact shares.mem c
  cases steps with
  | keep =>
    refine ⟨shares.nodup, ?_⟩
    intro c
    by_cases same : c = me
    · rw [same, after, ← before]
      exact shares.mem me
    · exact sameOf c same
  | enter =>
    have absent : me ∉ readers := by
      rw [shares.mem me, before]
      exact nofun
    refine ⟨List.nodup_cons.mpr ⟨absent, shares.nodup⟩, ?_⟩
    intro c
    by_cases same : c = me
    · rw [same, after]
      exact iff_of_true List.mem_cons_self rfl
    · rw [List.mem_cons, or_iff_right same]
      exact sameOf c same
  | leave =>
    refine ⟨shares.nodup.erase me, ?_⟩
    intro c
    rw [shares.nodup.mem_erase_iff]
    by_cases same : c = me
    · rw [same, after]
      exact iff_of_false (fun both => both.1 rfl) nofun
    · rw [and_iff_right same]
      exact sameOf c same

theorem Shares.eq_nil {readers : List ι}
    (shares : Shares readers holds) (none' : ∀ c, holds c = false) :
    readers = [] := by
  apply List.eq_nil_iff_forall_not_mem.mpr
  intro c member
  have held := (shares.mem c).mp member
  rw [none' c] at held
  cases held

end Ownership

/-!
## Counting over clients

What the clients hold together changes as the client that moves does.
-/

namespace Counts

variable {ι β : Type} [Fintype ι] [DecidableEq ι]

omit [DecidableEq ι] in
theorem single_le_sum (held : β → Nat) (clients : ι → β) (me : ι) :
    held (clients me) ≤ ∑ c, held (clients c) :=
  Finset.single_le_sum (fun c _ => Nat.zero_le (held (clients c))) (Finset.mem_univ me)

theorem sum_update (held : β → Nat) (clients : ι → β) (me : ι) (next : β) :
    (∑ c, held (Function.update clients me next c)) + held (clients me) =
      (∑ c, held (clients c)) + held next := by
  have before := Finset.sum_erase_add Finset.univ (fun c => held (clients c)) (Finset.mem_univ me)
  have after := Finset.sum_erase_add Finset.univ
    (fun c => held (Function.update clients me next c)) (Finset.mem_univ me)
  have others : ∑ c ∈ Finset.univ.erase me,
      held (Function.update clients me next c) = ∑ c ∈ Finset.univ.erase me, held (clients c) := by
    apply Finset.sum_congr rfl
    intro c member
    rw [Function.update_of_ne (Finset.ne_of_mem_erase member)]
  rw [others, Function.update_self] at after
  rw [← before, ← after]
  exact Nat.add_right_comm _ _ _

theorem countP_set {α : Type} (counts : α → Bool) {entries : List α}
    {i : Nat} {entry : α} (at_ : entries[i]? = some entry) (next : α) :
    (entries.set i next).countP counts + (if counts entry then 1 else 0) =
      entries.countP counts + (if counts next then 1 else 0) := by
  induction entries generalizing i with
  | nil => cases at_
  | cons first rest ih =>
    cases i with
    | zero =>
      cases at_
      rw [List.set_cons_zero, List.countP_cons, List.countP_cons]
      exact Nat.add_right_comm _ _ _
    | succ i =>
      have others := ih at_
      rw [List.set_cons_succ, List.countP_cons, List.countP_cons]
      omega

end Counts

end Coast
