import Mathlib.Data.List.Nodup

/-!
# Copies of rooted graphs

A graph is copied by following its slots from the root.  Only the nodes that
are held twice have to be recognised: every way down to another node is the
same.
-/

namespace Coast

/-- A rooted graph: every node has a label and holds nodes in its slots. -/
structure RootedGraph (ν ι κ : Type*) where
  root : Option ν
  label : ν → κ
  slot : ν → ι → Option ν

namespace RootedGraph

variable {ν μ ι κ : Type*}

section Ways

variable (graph : RootedGraph ν ι κ)

/-- The nodes that are reached from the root. -/
inductive Reaches : ν → Prop
  | root {node : ν} : graph.root = some node → Reaches node
  | slot {holder node : ν} {place : ι} : Reaches holder →
      graph.slot holder place = some node → Reaches node

/-- A node that is held twice, by slots or by the root and a slot. -/
inductive Shared (node : ν) : Prop
  | root {holder : ν} {place : ι} (atRoot : graph.root = some node)
      (held : graph.slot holder place = some node)
  | slots {holder other : ν} {place otherPlace : ι} (held : graph.slot holder place = some node)
      (heldAgain : graph.slot other otherPlace = some node)
      (different : (holder, place) ≠ (other, otherPlace))

/-- The first of the nodes holds this one, the second the first and so on up
to the root. -/
def HeldBy : List ν → ν → Prop
  | [], node => graph.root = some node
  | holder :: holders, node =>
    (∃ place, graph.slot holder place = some node) ∧ HeldBy holders holder

variable {graph}

theorem HeldBy.of_append {above below : List ν} {node inner : ν}
    (held : graph.HeldBy (above ++ node :: below) inner) :
    graph.HeldBy below node := by
  induction above generalizing inner with
  | nil => exact held.2
  | cons holder above ih => exact ih held.2

theorem HeldBy.last {holders : List ν} {node : ν} (held : graph.HeldBy holders node) :
    graph.root = some node ∨ ∃ holder ∈ holders, ∃ place, graph.slot holder place = some node := by
  cases holders with
  | nil => exact Or.inl held
  | cons holder holders => exact Or.inr ⟨holder, by simp, held.1⟩

theorem HeldBy.notMem {holders : List ν} {node : ν} (held : graph.HeldBy holders node)
    (distinct : holders.Nodup) (alone : ¬ graph.Shared node) : node ∉ holders := by
  intro member
  rcases List.append_of_mem member with ⟨above, below, rfl⟩
  -- the innermost holder comes before everything behind the node
  have innermost : ∃ holder place, graph.slot holder place = some node ∧ holder ∉ below := by
    cases above with
    | nil =>
      rcases held.1 with ⟨place, inSlot⟩
      exact ⟨node, place, inSlot, (List.nodup_cons.mp distinct).1⟩
    | cons holder above =>
      rcases held.1 with ⟨place, inSlot⟩
      refine ⟨holder, place, inSlot, fun again => ?_⟩
      exact (List.nodup_cons.mp distinct).1
        (List.mem_append_right above (List.mem_cons_of_mem node again))
  rcases innermost with ⟨holder, place, inSlot, apart⟩
  rcases held.of_append.last with atRoot | ⟨other, inside, otherPlace, again⟩
  · exact alone (.root atRoot inSlot)
  · refine alone (.slots inSlot again fun same => apart ?_)
    rwa [(Prod.mk.inj same).1]

end Ways

/-! ## Corresponding nodes -/

section Copies

variable (left : RootedGraph ν ι κ) (right : RootedGraph μ ι κ)

/-- The nodes that the same way leads to. -/
inductive Corresponds : ν → μ → Prop
  | root {node : ν} {copy : μ} (atLeft : left.root = some node)
      (atRight : right.root = some copy) : Corresponds node copy
  | slot {holder node : ν} {holderCopy copy : μ} {place : ι}
      (holders : Corresponds holder holderCopy) (atLeft : left.slot holder place = some node)
      (atRight : right.slot holderCopy place = some copy) :
      Corresponds node copy

/-- A renaming of the nodes that keeps the root, the labels and the slots. -/
structure Isomorphism (rename : ν → μ) : Prop where
  root : right.root = left.root.map rename
  label : ∀ node, left.Reaches node → right.label (rename node) = left.label node
  slot : ∀ node, left.Reaches node → ∀ place,
    right.slot (rename node) place = (left.slot node place).map rename
  injective : ∀ node other, left.Reaches node → left.Reaches other →
    rename node = rename other → node = other

variable {left right}

theorem Corresponds.unique (shared : ∀ {node copy other}, left.Shared node →
      Corresponds left right node copy → Corresponds left right node other → copy = other)
    {node : ν} {copy other : μ}
    (first : Corresponds left right node copy)
    (second : Corresponds left right node other) : copy = other := by
  induction first generalizing other with
  | root atLeft atRight =>
    cases second with
    | root _ atRight' => exact Option.some.inj (atRight.symm.trans atRight')
    | slot holders atLeft' atRight' =>
      exact shared (.root atLeft atLeft') (.root atLeft atRight) (.slot holders atLeft' atRight')
  | @slot holder node holderCopy copy place holders atLeft atRight
      ih =>
      cases second with
      | root atLeft' atRight' =>
        exact shared (.root atLeft' atLeft) (.slot holders atLeft atRight) (.root atLeft' atRight')
      | @slot holder' _ holderCopy' _ place' holders' atLeft' atRight' =>
        by_cases same : (holder, place) = (holder', place')
        · cases same
          rw [ih holders'] at atRight
          exact Option.some.inj (atRight.symm.trans atRight')
        · exact shared (.slots atLeft atLeft' same)
            (.slot holders atLeft atRight) (.slot holders' atLeft' atRight')

/-- A copy that has a node wherever the original has one. -/
structure Matches (left : RootedGraph ν ι κ) (right : RootedGraph μ ι κ) : Prop where
  root : left.root.isSome = right.root.isSome
  slot : ∀ {node copy}, Corresponds left right node copy → ∀ place,
    (left.slot node place).isSome = (right.slot copy place).isSome

variable (same : Matches left right)
include same

theorem Matches.exists_copy {node : ν} (reaches : left.Reaches node) :
    ∃ copy, Corresponds left right node copy := by
  induction reaches with
  | root atLeft =>
    have present := same.root
    rw [atLeft] at present
    rcases Option.isSome_iff_exists.mp present.symm with ⟨copy, atRight⟩
    exact ⟨copy, .root atLeft atRight⟩
  | @slot holder node place _ atLeft ih =>
    rcases ih with ⟨holderCopy, holders⟩
    have present := same.slot holders place
    rw [atLeft] at present
    rcases Option.isSome_iff_exists.mp present.symm with ⟨copy, atRight⟩
    exact ⟨copy, .slot holders atLeft atRight⟩

theorem Matches.exists_original {copy : μ} (reaches : right.Reaches copy) :
    ∃ node, Corresponds left right node copy := by
  induction reaches with
  | root atRight =>
    have present := same.root
    rw [atRight] at present
    rcases Option.isSome_iff_exists.mp present with ⟨node, atLeft⟩
    exact ⟨node, .root atLeft atRight⟩
  | @slot holderCopy copy place _ atRight ih =>
    rcases ih with ⟨holder, holders⟩
    have present := same.slot holders place
    rw [atRight] at present
    rcases Option.isSome_iff_exists.mp present with ⟨node, atLeft⟩
    exact ⟨node, .slot holders atLeft atRight⟩

/-- A copy in which shared nodes have one copy, and every copy one original,
is isomorphic. -/
theorem Matches.exists_isomorphism [Inhabited μ]
    (label : ∀ {node copy}, Corresponds left right node copy → right.label copy = left.label node)
    (shared : ∀ {node copy other}, left.Shared node →
      Corresponds left right node copy → Corresponds left right node other → copy = other)
    (original : ∀ {node other copy}, Corresponds left right node copy →
      Corresponds left right other copy → node = other) :
    ∃ rename, Isomorphism left right rename ∧
      ∀ node, left.Reaches node → Corresponds left right node (rename node) := by
  classical
  let rename : ν → μ := fun node =>
    if reaches : left.Reaches node then (same.exists_copy reaches).choose
    else default
  have copies : ∀ node, left.Reaches node → Corresponds left right node (rename node) := by
    intro node reaches
    unfold rename
    rw [dif_pos reaches]
    exact (same.exists_copy reaches).choose_spec
  have unique : ∀ {node copy}, left.Reaches node →
      Corresponds left right node copy → copy = rename node :=
    fun reaches pair => Corresponds.unique shared pair (copies _ reaches)
  refine ⟨rename, ⟨?_, ?_, ?_, ?_⟩, copies⟩
  · cases atLeft : left.root with
    | none =>
      have present := same.root
      rw [atLeft] at present
      exact Option.isNone_iff_eq_none.mp (by simpa using present.symm)
    | some node =>
      have present := same.root
      rw [atLeft] at present
      rcases Option.isSome_iff_exists.mp present.symm with ⟨copy, atRight⟩
      rw [atRight, unique (.root atLeft) (.root atLeft atRight)]
      rfl
  · exact fun node reaches => label (copies node reaches)
  · intro node reaches place
    have present := same.slot (copies node reaches) place
    cases atLeft : left.slot node place with
    | none =>
      rw [atLeft] at present
      exact Option.isNone_iff_eq_none.mp (by simpa using present.symm)
    | some inner =>
      rw [atLeft] at present
      rcases Option.isSome_iff_exists.mp present.symm with ⟨copy, atRight⟩
      rw [atRight, unique (.slot reaches atLeft) (.slot (copies node reaches) atLeft atRight)]
      rfl
  · intro node other reaches otherReaches equal
    have otherCopy := copies other otherReaches
    rw [← equal] at otherCopy
    exact original (copies node reaches) otherCopy

end Copies

end RootedGraph

end Coast
