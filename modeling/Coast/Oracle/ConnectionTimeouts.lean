import Coast.Oracle.ConnectionAccounts

/-!
# Which connections are closed for their age

The entries of `/Open` are in the order of their time stamps, so that the loop
of `CheckCloseOpenedConnections` may stop at the first recent one.
-/

namespace Coast.ConnectionPool

open Function List Option

variable {ι : Type} {n : Nat} {this : ConnectionPool ι} [DecidableEq ι]

def stamps (fOpen : List (Bytes × List (Nat × Bytes))) : List Bytes := fOpen.map Prod.fst

/-- The stamps of the releases come from a clock that does not go back. -/
def Clocked (time : Bytes → Int) (now : Int) : List (PoolStep ι) → Prop
  | [] => True
  | .release _ _ aStamp :: actions => now ≤ time aStamp ∧ Clocked time (time aStamp) actions
  | _ :: actions => Clocked time now actions

def InOrder (time : Bytes → Int) (now : Int) (fOpen : List (Bytes × List (Nat × Bytes))) : Prop :=
  ((stamps fOpen).map time ++ [now]).Pairwise (· ≤ ·)

section

variable {time : Bytes → Int} {now : Int} {fOpen fewer : List (Bytes × List (Nat × Bytes))}

theorem InOrder.sublist (inOrder : InOrder time now fOpen)
    (less : (stamps fewer).Sublist (stamps fOpen)) : InOrder time now fewer :=
  Pairwise.sublist ((less.map time).append_right [now]) inOrder

theorem stamps_cleanOpen (fOpen : List (Bytes × List (Nat × Bytes))) (i j : Nat) :
    (stamps (cleanOpen fOpen i j)).Sublist (stamps fOpen) := by
  have same : stamps (fOpen.modify i fun entry => (entry.1, entry.2.eraseIdx j)) = stamps fOpen := by
    apply ext_getElem?
    intro k
    simp only [stamps, getElem?_map, getElem?_modify]
    cases fOpen[k]? with
    | none => rfl
    | some entry => split <;> rfl
  simp only [cleanOpen]
  split
  · rw [← same]
    exact (eraseIdx_sublist _ _).map _
  · exact same ▸ Sublist.refl _

theorem stamps_appendOpen (stamp : Bytes) (anyToStore : Nat × Bytes)
    (fOpen : List (Bytes × List (Nat × Bytes))) :
    stamps (appendOpen stamp anyToStore fOpen) = stamps fOpen ∨
      stamps (appendOpen stamp anyToStore fOpen) = stamps fOpen ++ [stamp] := by
  induction fOpen with
  | nil => exact .inr rfl
  | cons entry fOpen ih =>
    rw [appendOpen]
    split
    · exact .inl rfl
    · exact ih.imp (congrArg (entry.1 :: ·)) (congrArg (entry.1 :: ·))

theorem stamps_closeTimeouted (timeouted : Bytes → Bool)
    (fOpen : List (Bytes × List (Nat × Bytes))) :
    (stamps (closeTimeouted timeouted fOpen).1).Sublist (stamps fOpen) := by
  induction fOpen with
  | nil => exact .refl _
  | cons entry fOpen ih =>
    rw [closeTimeouted]
    split
    · exact ih.cons _
    · exact .refl _

/-- The loop stops at the first entry that is recent, and so finds all that
are not. -/
theorem InOrder.closeTimeouted_eq (inOrder : InOrder time now fOpen) (limit : Int) :
    closeTimeouted (fun stamp => decide (time stamp < limit)) fOpen =
      (fOpen.filter fun entry => decide (limit ≤ time entry.1),
        ((fOpen.filter fun entry => decide (time entry.1 < limit)).flatMap Prod.snd).map
          Prod.fst) := by
  induction fOpen with
  | nil => rfl
  | cons entry fOpen ih =>
    rcases pairwise_cons.mp inOrder with ⟨first, rest⟩
    rw [closeTimeouted]
    by_cases old : time entry.1 < limit
    · have recent : ¬ limit ≤ time entry.1 := by omega
      simp [old, recent, ih rest]
    · have all : ∀ other ∈ fOpen, limit ≤ time other.1 := by
        intro other member
        have later := first (time other.1) (by
          exact mem_append_left _ (mem_map_of_mem (mem_map_of_mem member)))
        omega
      have keeps : fOpen.filter (fun entry => decide (limit ≤ time entry.1)) = fOpen :=
        filter_eq_self.mpr fun other member => decide_eq_true (all other member)
      have none_ : fOpen.filter (fun entry => decide (time entry.1 < limit)) = [] := by
        rw [filter_eq_nil_iff]
        intro other member
        simpa using all other member
      simp [old, Int.not_lt.mp old, keeps, none_]

theorem InOrder.later (inOrder : InOrder time now fOpen) {later : Int} (le : now ≤ later) :
    InOrder time later fOpen := by
  rw [InOrder, pairwise_append] at inOrder ⊢
  refine ⟨inOrder.1, pairwise_singleton _ _, ?_⟩
  intro a member b last
  cases mem_singleton.mp last
  exact Int.le_trans (inOrder.2.2 a member now (mem_singleton_self _)) le

theorem InOrder.release (inOrder : InOrder time now fOpen) {aStamp : Bytes}
    (clock : now ≤ time aStamp) (anyToStore : Nat × Bytes) :
    InOrder time (time aStamp) (appendOpen aStamp anyToStore fOpen) := by
  rcases stamps_appendOpen aStamp anyToStore fOpen with same | added
  · exact (inOrder.later clock).sublist (same ▸ Sublist.refl _)
  · have all := inOrder.later clock
    rw [InOrder] at all ⊢
    rw [added, map_append, pairwise_append]
    refine ⟨all, pairwise_singleton _ _, ?_⟩
    intro a member b last
    cases mem_singleton.mp last
    rcases mem_append.mp member with earlier | itself
    · exact (pairwise_append.mp all).2.2 a earlier _ (mem_singleton_self _)
    · exact Int.le_of_eq (mem_singleton.mp itself)

end

theorem stamps_intBorrowConnection {list after : ConnectionList} {server user : Bytes} {c : Nat}
    {mustClose : Bool} (gets : intBorrowConnection list server user = some (c, after, mustClose)) :
    (stamps after.fOpen).Sublist (stamps list.fOpen) := by
  have cleaned : ∀ {server user : Bytes}, intGetOpen list server user = some (c, after) →
      (stamps after.fOpen).Sublist (stamps list.fOpen) := by
    intro server user gets
    rcases bind_eq_some_iff.mp gets with ⟨⟨i, j⟩, -, rest⟩
    rcases bind_eq_some_iff.mp rest with ⟨entry, -, rest⟩
    rcases bind_eq_some_iff.mp rest with ⟨roaConn, -, rest⟩
    cases rest
    exact stamps_cleanOpen _ _ _
  rcases intBorrowConnection_cases gets with ⟨-, -, gets, -⟩ | ⟨-, same, -⟩ | ⟨gets, -⟩
  · exact cleaned gets
  · exact same ▸ .refl _
  · exact cleaned gets

theorem run_inOrder {time : Bytes → Int} {now : Int} {last : ConnectionPool ι}
    {actions : List (PoolStep ι)} (runs : Runs.run step this actions = some last)
    (inOrder : InOrder time now this.fListOfConnections.fOpen) (clocked : Clocked time now actions) :
    ∃ later, InOrder time later last.fListOfConnections.fOpen := by
  induction actions generalizing this now with
  | nil =>
    cases runs
    exact ⟨now, inOrder⟩
  | cons action actions ih =>
    rcases Runs.run_cons runs with ⟨after, steps, rest⟩
    cases action with
    | acquire me server user =>
      rcases ite_none_right_eq_some.mp steps with ⟨-, ⟨⟩⟩
      exact ih rest inOrder clocked
    | acquireFails me server user =>
      cases steps
      exact ih rest inOrder clocked
    | borrow me server user =>
      rcases ite_none_right_eq_some.mp steps with ⟨-, ⟨⟩⟩
      refine ih rest ?_ clocked
      rw [borrowConnection]
      cases gets : intBorrowConnection this.fListOfConnections server user with
      | none => exact inOrder
      | some found =>
        rcases found with ⟨c, list, mustClose⟩
        have fewer := inOrder.sublist (stamps_intBorrowConnection gets)
        cases mustClose <;> exact fewer
    | open_ me c server user accepted =>
      rcases ite_none_right_eq_some.mp steps with ⟨-, opens⟩
      split at opens <;> cases opens <;> exact ih rest inOrder clocked
    | close me c =>
      rcases ite_none_right_eq_some.mp steps with ⟨-, ⟨⟩⟩
      exact ih rest inOrder clocked
    | release me c aStamp =>
      rcases ite_none_right_eq_some.mp steps with ⟨-, ⟨⟩⟩
      refine ih rest ?_ clocked.2
      simp only [releaseConnection, intReleaseConnection]
      split
      · exact inOrder.release clocked.1 _
      · exact inOrder.later clocked.1
    | checkClose timeouted =>
      cases steps
      exact ih rest (inOrder.sublist (stamps_closeTimeouted _ _)) clocked

/-- While the clock does not go back, all idle connections that are older than
the limit are closed and unused then, and all others stay as they are listed. -/
theorem init_run_checkClose {time : Bytes → Int} {now : Int} {last : ConnectionPool ι}
    {actions : List (PoolStep ι)} (runs : Runs.run step (init n) actions = some last)
    (clocked : Clocked time now actions) (limit : Int) :
    ∃ after, last.step (.checkClose fun stamp => decide (time stamp < limit)) = some after ∧
      after.fListOfConnections.fOpen = last.fListOfConnections.fOpen.filter
        (fun entry => decide (limit ≤ time entry.1)) ∧
      ∀ entry ∈ last.fListOfConnections.fOpen, time entry.1 < limit → ∀ c ∈ entry.2.map Prod.fst,
        c ∈ after.fListOfConnections.fUnused ∧ (after.connections c).isOpen = false := by
  have start : InOrder time now (init (ι := ι) n).fListOfConnections.fOpen := by
    rw [connections_init]
    exact pairwise_singleton _ _
  rcases run_inOrder runs start clocked with ⟨later, inOrder⟩
  refine ⟨_, rfl, ?_⟩
  simp only [checkCloseOpenedConnections, inOrder.closeTimeouted_eq limit]
  refine ⟨trivial, ?_⟩
  intro entry member old c listed
  have closed : c ∈ ((last.fListOfConnections.fOpen.filter fun entry =>
      decide (time entry.1 < limit)).flatMap Prod.snd).map Prod.fst := by
    rcases mem_map.mp listed with ⟨pair, inEntry, rfl⟩
    exact mem_map_of_mem (mem_flatMap.mpr ⟨entry, mem_filter.mpr ⟨member, decide_eq_true old⟩,
      inEntry⟩)
  rw [if_pos closed]
  exact ⟨mem_append_right _ closed, rfl⟩

/-- A connection that is given back at once. -/
private def givenBack : List (PoolStep Nat) :=
  [.acquire 0 [97] [98], .borrow 0 [97] [98], .open_ 0 0 [97] [98] true, .release 0 0 [49]]

theorem init_run_checkClose_givenBack :
    ∃ last after, Runs.run step (init 1) givenBack = some last ∧
      last.step (.checkClose fun stamp => decide ((stamp.length : Int) < 2)) = some after ∧
      0 ∈ after.fListOfConnections.fUnused ∧ (after.connections 0).isOpen = false := by
  obtain ⟨last, runs, opened⟩ : ∃ last, Runs.run step (init 1) givenBack = some last ∧
      last.fListOfConnections.fOpen = [([49], [(0, joined [97] [98])])] := ⟨_, rfl, rfl⟩
  have clocked : Clocked (fun stamp => (stamp.length : Int)) 0 givenBack :=
    ⟨by decide, trivial⟩
  rcases init_run_checkClose runs clocked 2 with ⟨after, closes, -, closed⟩
  rw [opened] at closed
  exact ⟨last, after, runs, closes, closed _ (mem_singleton_self _) (by decide) 0 (by simp)⟩

end Coast.ConnectionPool
