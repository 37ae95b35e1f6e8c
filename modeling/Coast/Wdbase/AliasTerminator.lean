import Coast.Wdbase.Registry

/-!
# The alias terminator

`DoTerminate` cleans a registry up exactly if all names of its dynamic
objects can be found, and no object leaves the position just behind the table.
-/

namespace Coast

open List Nat

namespace RegistryTable

open RegistryIterator

variable {ω : Type} [DecidableEq ω]

def Registered (table : Slots (Option ω)) (o : ω) : Prop := ∃ name, (name, some o) ∈ table

def statics (isStatic : ω → Bool) (table : Slots (Option ω)) : Slots (Option ω) :=
  table.filter fun slot => slot.2.any isStatic

def entries (o : ω) (table : Slots (Option ω)) : Nat := table.countP fun slot => slot.2 = some o

def staticsBehind (isStatic : ω → Bool) (o : ω) (table : Slots (Option ω)) : Nat :=
  (table.reverse.takeWhile fun slot => slot.2 ≠ some o).countP fun slot => slot.2.any isStatic

/-- No dynamic object has exactly two names more than there are static
entries behind it. -/
def Fits (isStatic : ω → Bool) (table : Slots (Option ω)) : Prop :=
  ∀ o, isStatic o = false → Registered table o →
    entries o table ≠ staticsBehind isStatic o table + 2

def UsesBeforeDelete (uses : List (ObjectUse ω)) : Prop :=
  uses.Pairwise fun before after =>
    ∀ o, before = .delete o → after.object ≠ o

/-- What is done with the objects of which so many entries are to come. -/
structure Clean (isStatic : ω → Bool) (table : Slots (Option ω)) (n : Nat)
    (uses : List (ObjectUse ω)) : Prop where
  finalizes : ∀ o, Registered (table.take n) o → .finalize o ∈ uses
  deletes : ∀ o, isStatic o = false → Registered table o → uses.count (.delete o) = 1
  dynamic : ∀ o, .delete o ∈ uses → isStatic o = false
  registered : ∀ use ∈ uses, Registered table use.object
  safe : UsesBeforeDelete uses

/-- Every object is finalised, the dynamic ones are deleted once and not
used behind, and the entries of the static ones are left. -/
structure TerminatesCleanly (shared : Bool) (isStatic : ω → Bool)
    (this : RegistryTable ω) : Prop where
  clean : Clean isStatic this.fTable this.fTable.length (doTerminate shared isStatic this.fTable).1
  leaves : (doTerminate shared isStatic this.fTable).2 = statics isStatic this.fTable

/-- The table while the terminator walks backwards and stands in front of slot `n`. -/
structure Walk (isStatic : ω → Bool) (table : Slots (Option ω)) (n : Nat) : Prop where
  inside : n ≤ table.length
  keysOk : table.KeysOk
  objects : ∀ slot ∈ table, slot.2.isSome = true
  named : ∀ o, isStatic o = false → Named table o
  behind : ∀ slot ∈ table.drop n, slot.2.any isStatic = true

variable {isStatic : ω → Bool} {table : Slots (Option ω)} {n : Nat} {shared : Bool} {o : ω}

theorem loop_zero (table : Slots (Option ω)) (name : Bytes) :
    doTerminateLoop shared isStatic (back 0) table name = ([], table) := by
  rw [doTerminateLoop, dif_neg (by rw [hasMore_back]; decide)]

variable {key : Bytes}

theorem loop_static (here : table[n]? = some (key, some o))
    (static : isStatic o = true) (name : Bytes) :
    doTerminateLoop shared isStatic (back (n + 1)) table name = (.finalize o :: .isStatic o ::
        (doTerminateLoop shared isStatic (back n) table key).1,
        (doTerminateLoop shared isStatic (back n) table key).2) := by
  have more : (back (n + 1)).hasMore = true := by
    rw [hasMore_back, decide_eq_true n.succ_pos]
  rw [doTerminateLoop, dif_pos more]
  simp only [next_inside shared here, if_pos static]
  rfl

theorem loop_dynamic (here : table[n]? = some (key, some o))
    (dynamic : isStatic o = false) (keysOk : table.KeysOk) (named : Named table o) (name : Bytes) :
    doTerminateLoop shared isStatic (back (n + 1)) table name =
      (.finalize o :: .isStatic o :: .delete o ::
        (doTerminateLoop shared isStatic (back n) (without o table) key).1,
        (doTerminateLoop shared isStatic (back n) (without o table) key).2) := by
  have more : (back (n + 1)).hasMore = true := by
    rw [hasMore_back, decide_eq_true n.succ_pos]
  rw [doTerminateLoop, dif_pos more]
  simp only [next_inside shared here, dynamic, Bool.false_eq_true, if_false,
    unregister_eq shared keysOk named here]
  rfl

theorem loop_outside (table : Slots (Option ω)) (name : Bytes) :
    doTerminateLoop shared isStatic (back (table.length + 1)) table name =
      doTerminateLoop shared isStatic (back table.length)
        (if shared then table ++ [([], none)] else table) [] := by
  have more : (back (table.length + 1)).hasMore = true := by
    rw [hasMore_back, decide_eq_true (succ_pos _)]
  rw [doTerminateLoop, dif_pos more]
  simp only [next_outside]

theorem loop_behind (behind : table.length < n) (name : Bytes) :
    doTerminateLoop shared isStatic (back (n + 1)) table name =
      doTerminateLoop shared isStatic (back table.length) table name := by
  have more : (back (n + 1)).hasMore = true := by
    rw [hasMore_back, decide_eq_true n.succ_pos]
  by_cases empty : 0 < table.length
  · have alsoMore : (back table.length).hasMore = true := by
      rw [hasMore_back, decide_eq_true empty]
    rw [doTerminateLoop, dif_pos more, next_behind shared behind, if_pos empty]
    conv_rhs => rw [doTerminateLoop, dif_pos alsoMore]
  · rw [doTerminateLoop, dif_pos more, next_behind shared behind,
      if_neg empty, Nat.eq_zero_of_not_pos empty, loop_zero]
    simp only [loop_zero]

theorem loop_far (far : shared = true → n ≠ table.length + 1) (name : Bytes) :
    ∃ key, doTerminateLoop shared isStatic (back n) table name =
      doTerminateLoop shared isStatic (back (min n table.length)) table key := by
  rcases lt_or_ge table.length n with late | inside
  · rw [min_eq_right late.le]
    cases n with
    | zero => exact absurd late (not_lt_zero _)
    | succ m =>
      rcases lt_or_eq_of_le (le_of_lt_succ late) with behind | here
      · exact ⟨name, loop_behind behind name⟩
      · rw [← here] at far ⊢
        have alone : shared = false := by
          cases shared with
          | false => rfl
          | true => exact absurd rfl (far rfl)
        refine ⟨[], (loop_outside table name).trans ?_⟩
        rw [alone]
        rfl
  · rw [min_eq_left inside]
    exact ⟨name, rfl⟩

/-! ## What one turn leaves of the table -/

omit [DecidableEq ω] in
theorem Walk.static {key : Bytes} (walk : Walk isStatic table (n + 1))
    (here : table[n]? = some (key, some o)) (static : isStatic o = true) :
    Walk isStatic table n where
  inside := le_of_succ_le walk.inside
  keysOk := walk.keysOk
  objects := walk.objects
  named := walk.named
  behind := by
    rw [(split_at here).2]
    intro slot member
    rcases mem_cons.mp member with rfl | later
    · exact static
    · exact walk.behind slot later

theorem length_without (o : ω) (table : Slots (Option ω)) :
    (without o table).length + entries o table = table.length := by
  rw [without, ← countP_eq_length_filter, entries, add_comm,
    table.length_eq_countP_add_countP fun slot => slot.2 = some o]
  simp only [decide_not, decide_eq_true_eq, ne_eq]

theorem mem_without {slot : Bytes × Option ω} :
    slot ∈ without o table ↔ slot ∈ table ∧ slot.2 ≠ some o := by
  rw [without, mem_filter, decide_eq_true_eq]

theorem drop_without (o : ω) (table : Slots (Option ω)) (n : Nat) :
    ∀ slot ∈ (without o table).drop n, slot ∈ table.drop n := by
  intro slot member
  rw [← take_append_drop n table, without_append, drop_append] at member
  have short : (without o (table.take n)).length ≤ n :=
    le_trans (without_sublist o _).length_le (length_take_le n table)
  rw [drop_eq_nil_of_le short, nil_append] at member
  exact (without_sublist o _).subset (mem_of_mem_drop member)

theorem take_without {slot : Bytes × Option ω}
    (member : slot ∈ table.take n) (other : slot.2 ≠ some o) :
    slot ∈ (without o table).take (min n (without o table).length) := by
  have kept : slot ∈ without o (table.take n) := mem_without.mpr ⟨member, other⟩
  have parts : without o table = without o (table.take n) ++ without o (table.drop n) := by
    rw [← without_append, take_append_drop]
  have short : (without o (table.take n)).length ≤ min n (without o table).length := by
    apply Nat.le_min.mpr
    constructor
    · exact le_trans (without_sublist o _).length_le (length_take_le n table)
    · rw [parts, length_append]
      exact le_add_right _ _
  rw [parts, take_append, mem_append]
  rw [parts] at short
  rw [take_of_length_le short]
  exact .inl kept

theorem Walk.dynamic (walk : Walk isStatic table (n + 1)) (here : table[n]? = some (key, some o)) :
    Walk isStatic (without o table) (min n (without o table).length) where
  inside := min_le_right _ _
  keysOk := keysOk_of_sublist walk.keysOk (without_sublist o table)
  objects slot member := walk.objects slot (mem_without.mp member).1
  named object dynamic slot member := walk.named object dynamic slot (mem_without.mp member).1
  behind := by
    intro slot member
    have inner : slot ∈ (without o table).drop n := by
      rcases le_total n (without o table).length with less | more
      · rwa [min_eq_left less] at member
      · rw [min_eq_right more, drop_length] at member
        cases member
    have outer := drop_without o table n slot inner
    rw [(split_at here).2] at outer
    rcases mem_cons.mp outer with rfl | later
    · exact absurd rfl (mem_without.mp (mem_of_mem_drop inner)).2
    · exact walk.behind slot later

theorem statics_without (dynamic : isStatic o = false) (table : Slots (Option ω)) :
    statics isStatic (without o table) = statics isStatic table := by
  rw [statics, statics, without, filter_filter]
  apply filter_congr
  intro slot _
  cases object : slot.2 with
  | none => rfl
  | some other =>
    cases static : isStatic other with
    | false => simp only [Option.any_some, static, Bool.false_and]
    | true =>
      have different : other ≠ o := by
        rintro rfl
        rw [dynamic] at static
        cases static
      simp only [Option.any_some, static, ne_eq, Option.some.injEq,
        different, not_false_eq_true, decide_true, Bool.and_true]

theorem entries_without {other : ω} (different : other ≠ o) (table : Slots (Option ω)) :
    entries other (without o table) = entries other table := by
  rw [entries, entries, without, countP_filter]
  apply countP_congr
  intro slot _
  simp only [ne_eq, Bool.and_eq_true, decide_eq_true_eq]
  constructor
  · exact And.left
  · intro same
    rw [same]
    exact ⟨rfl, fun alike => different (Option.some.inj alike)⟩

theorem staticsBehind_without {other : ω} (different : other ≠ o)
    (dynamic : isStatic o = false) (table : Slots (Option ω)) :
    staticsBehind isStatic other (without o table) = staticsBehind isStatic other table := by
  have same : (fun slot : Bytes × Option ω =>
      !decide (slot.2 ≠ some o) || decide (slot.2 ≠ some other)) =
      fun slot => decide (slot.2 ≠ some other) := by
    funext slot
    by_cases mine : slot.2 = some o
    · have apart : slot.2 ≠ some other := by
        rw [mine, ne_eq, Option.some.injEq]
        exact different.symm
      rw [decide_eq_true apart, Bool.or_true]
    · rw [decide_eq_true mine]
      rfl
  rw [staticsBehind, staticsBehind, without, ← filter_reverse,
    takeWhile_filter, same, countP_filter]
  apply countP_congr
  intro slot _
  rw [Bool.and_eq_true, decide_eq_true_eq]
  constructor
  · exact And.left
  · intro static
    refine ⟨static, fun mine => ?_⟩
    rw [mine, Option.any_some, dynamic] at static
    cases static

theorem registered_without {other : ω} (different : other ≠ o) :
    Registered (without o table) other ↔ Registered table other := by
  constructor
  · rintro ⟨name, member⟩
    exact ⟨name, (mem_without.mp member).1⟩
  · rintro ⟨name, member⟩
    refine ⟨name, mem_without.mpr ⟨member, ?_⟩⟩
    rw [ne_eq, Option.some.injEq]
    exact different

theorem not_registered_without : ¬ Registered (without o table) o := by
  rintro ⟨name, member⟩
  exact (mem_without.mp member).2 rfl

theorem Walk.staticsBehind_eq (walk : Walk isStatic table (n + 1))
    (here : table[n]? = some (key, some o)) (dynamic : isStatic o = false) :
    staticsBehind isStatic o table = table.length - (n + 1) := by
  have apart : ∀ slot ∈ (table.drop (n + 1)).reverse, decide (slot.2 ≠ some o) = true := by
    intro slot member
    apply decide_eq_true
    intro mine
    have static := walk.behind slot (mem_reverse.mp member)
    rw [mine, Option.any_some, dynamic] at static
    cases static
  have whole : table = table.take n ++ (key, some o) :: table.drop (n + 1) := by
    rw [← (split_at here).2, take_append_drop]
  have parts : table.reverse =
      (table.drop (n + 1)).reverse ++ (key, some o) :: (table.take n).reverse := by
    apply (congrArg List.reverse whole).trans
    rw [reverse_append, reverse_cons, append_assoc]
    rfl
  rw [staticsBehind, parts, takeWhile_append_of_pos apart,
    takeWhile_cons_of_neg (by simp), append_nil,
    countP_reverse, countP_eq_length.mpr walk.behind,
    length_drop]

/-- The position is just behind the table exactly where the object has two
names more than there are entries behind. -/
theorem Walk.outside_iff (walk : Walk isStatic table (n + 1))
    (here : table[n]? = some (key, some o)) (dynamic : isStatic o = false) :
    n = (without o table).length + 1 ↔ entries o table = staticsBehind isStatic o table + 2 := by
  have whole := length_without o table
  have inside := walk.inside
  rw [walk.staticsBehind_eq here dynamic]
  omega

theorem fits_without (dynamic : isStatic o = false)
    (apart : entries o table ≠ staticsBehind isStatic o table + 2) :
    Fits isStatic table ↔ Fits isStatic (without o table) := by
  constructor
  · intro fits other alsoDynamic member
    have different : other ≠ o := by
      rintro rfl
      exact not_registered_without member
    rw [entries_without different, staticsBehind_without different dynamic]
    exact fits other alsoDynamic ((registered_without different).mp member)
  · intro fits other alsoDynamic member
    by_cases same : other = o
    · subst same
      exact apart
    · rw [← entries_without same, ← staticsBehind_without same dynamic]
      exact fits other alsoDynamic ((registered_without same).mpr member)

omit [DecidableEq ω] in
theorem Walk.slot (walk : Walk isStatic table (n + 1)) :
    ∃ key o, table[n]? = some (key, some o) := by
  have inside : n < table.length := walk.inside
  have object := walk.objects _ (getElem_mem inside)
  rcases Option.isSome_iff_exists.mp object with ⟨o, same⟩
  refine ⟨table[n].1, o, ?_⟩
  rw [getElem?_eq_getElem inside, ← same]

omit [DecidableEq ω] in
theorem Walk.statics_eq (walk : Walk isStatic table 0) : statics isStatic table = table :=
  filter_eq_self.mpr walk.behind

theorem Walk.fits (walk : Walk isStatic table 0) : Fits isStatic table := by
  rintro o dynamic ⟨name, member⟩
  have static := walk.behind _ member
  rw [Option.any_some, dynamic] at static
  cases static

theorem not_leaves_of_outside (walk : Walk isStatic table n) (o : ω) (name : Bytes) :
    (doTerminateLoop true isStatic (back ((without o table).length + 1))
      (without o table) name).2 ≠ statics isStatic table := by
  intro leaves
  have added : 0 < (without o table ++ [([], none)]).count ([], none) := by
    rw [count_append]
    exact lt_of_lt_of_le one_pos (le_add_left _ _)
  have kept := lt_of_lt_of_le added
    (count_doTerminateLoop rfl true isStatic (back (without o table).length)
      (without o table ++ [([], none)]) [])
  rw [loop_outside, if_pos rfl] at leaves
  rw [leaves] at kept
  have member := mem_of_mem_filter (count_pos_iff.mp kept)
  have object := walk.objects _ member
  cases object

/-- The entries of the static objects are left exactly if no dynamic object
leaves the position just behind the table. -/
theorem Walk.leaves_iff (walk : Walk isStatic table n) (name : Bytes) :
    (doTerminateLoop shared isStatic (back n) table name).2 = statics isStatic table ↔
      (shared = true → Fits isStatic table) := by
  induction n using Nat.strongRecOn generalizing table name with
  | ind n ih =>
    cases n with
    | zero =>
      rw [loop_zero, walk.statics_eq]
      exact iff_of_true rfl fun _ => walk.fits
    | succ n =>
      rcases walk.slot with ⟨key, o, here⟩
      cases static : isStatic o with
      | true =>
        rw [loop_static here static]
        exact ih n n.lt_succ_self (walk.static here static) key
      | false =>
        rw [loop_dynamic here static walk.keysOk (walk.named o static)]
        by_cases outside : shared = true ∧ n = (without o table).length + 1
        · have unfit := (walk.outside_iff here static).mp outside.2
          have member := mem_of_getElem? here
          apply iff_of_false
          · rw [outside.1, outside.2]
            exact not_leaves_of_outside walk o key
          · intro fits
            exact fits outside.1 o static ⟨key, member⟩ unfit
        · rcases @loop_far _ _ isStatic _ _ _
            (fun same here => outside ⟨same, here⟩) key
            with ⟨other, same⟩
          rw [same, ← statics_without static table]
          apply (ih _ (lt_succ_of_le (min_le_left _ _)) (walk.dynamic here) other).trans
          apply imp_congr_right
          intro alsoShared
          refine (fits_without static fun unfit => ?_).symm
          exact outside ⟨alsoShared, (walk.outside_iff here static).mpr unfit⟩

theorem count_delete_uses (o other : ω) (uses : List (ObjectUse ω)) :
    (ObjectUse.finalize o :: .isStatic o :: uses).count (.delete other) =
      uses.count (.delete other) := by
  have finalize : ObjectUse.finalize o ≠ .delete other := nofun
  have isStatic : ObjectUse.isStatic o ≠ .delete other := nofun
  rw [count_cons_of_ne finalize, count_cons_of_ne isStatic]

theorem Clean.nil (walk : Walk isStatic table 0) : Clean isStatic table 0 [] where
  finalizes := by
    rintro o ⟨name, member⟩
    cases member
  deletes := by
    rintro o dynamic ⟨name, member⟩
    have static := walk.behind _ member
    rw [Option.any_some, dynamic] at static
    cases static
  dynamic := nofun
  registered := nofun
  safe := .nil

theorem Clean.static {uses : List (ObjectUse ω)}
    (here : table[n]? = some (key, some o)) (rest : Clean isStatic table n uses) :
    Clean isStatic table (n + 1) (.finalize o :: .isStatic o :: uses) where
  finalizes := by
    rintro other ⟨name, member⟩
    rw [(split_at here).1] at member
    rcases mem_append.mp member with front | last
    · exact .tail _ (.tail _ (rest.finalizes other ⟨name, front⟩))
    · cases mem_singleton.mp last
      exact .head _
  deletes := by
    intro other dynamic member
    rw [count_delete_uses]
    exact rest.deletes other dynamic member
  dynamic := by
    rintro other (_ | ⟨_, _ | ⟨_, member⟩⟩)
    exact rest.dynamic other member
  registered := by
    have mine : Registered table o := ⟨key, mem_of_getElem? here⟩
    rintro use (_ | ⟨_, _ | ⟨_, member⟩⟩)
    · exact mine
    · exact mine
    · exact rest.registered use member
  safe := .cons nofun (.cons nofun rest.safe)

theorem Clean.dynamic_cons {uses : List (ObjectUse ω)}
    (here : table[n]? = some (key, some o)) (dynamic : isStatic o = false)
    (rest : Clean isStatic (without o table)
      (min n (without o table).length) uses) :
    Clean isStatic table (n + 1) (.finalize o :: .isStatic o :: .delete o :: uses) where
  finalizes := by
    rintro other ⟨name, member⟩
    by_cases same : other = o
    · subst same
      exact .head _
    rw [(split_at here).1] at member
    rcases mem_append.mp member with front | last
    · have apart : some other ≠ some o := fun alike =>
        same (Option.some.inj alike)
      have kept := rest.finalizes other ⟨name, take_without front apart⟩
      exact .tail _ (.tail _ (.tail _ kept))
    · cases mem_singleton.mp last
      exact .head _
  deletes := by
    intro other alsoDynamic member
    rw [count_delete_uses]
    by_cases same : other = o
    · subst same
      rw [count_cons_self, count_eq_zero.mpr]
      intro again
      exact not_registered_without (rest.registered _ again)
    · rw [count_cons_of_ne fun alike => same (ObjectUse.delete.inj alike).symm]
      exact rest.deletes other alsoDynamic ((registered_without same).mpr member)
  dynamic := by
    rintro other (_ | ⟨_, _ | ⟨_, _ | ⟨_, member⟩⟩⟩)
    · exact dynamic
    · exact rest.dynamic other member
  registered := by
    have mine : Registered table o := ⟨key, mem_of_getElem? here⟩
    rintro use (_ | ⟨_, _ | ⟨_, _ | ⟨_, member⟩⟩⟩)
    · exact mine
    · exact mine
    · exact mine
    · rcases rest.registered use member with ⟨name, inside⟩
      exact ⟨name, (mem_without.mp inside).1⟩
  safe := by
    refine .cons nofun (.cons nofun (.cons ?_ rest.safe))
    rintro use member other same rfl
    cases same
    exact not_registered_without (rest.registered use member)

theorem Walk.clean (walk : Walk isStatic table n)
    (fits : shared = true → Fits isStatic table) (name : Bytes) :
    Clean isStatic table n (doTerminateLoop shared isStatic (back n) table name).1 := by
  induction n using Nat.strongRecOn generalizing table name with
  | ind n ih =>
    cases n with
    | zero =>
      rw [loop_zero]
      exact .nil walk
    | succ n =>
      rcases walk.slot with ⟨key, o, here⟩
      have member : Registered table o := ⟨key, mem_of_getElem? here⟩
      cases static : isStatic o with
      | true =>
        rw [loop_static here static]
        exact .static here (ih n n.lt_succ_self (walk.static here static) fits key)
      | false =>
        rw [loop_dynamic here static walk.keysOk (walk.named o static)]
        have far : shared = true → n ≠ (without o table).length + 1 := by
          intro same outside
          exact fits same o static member ((walk.outside_iff here static).mp outside)
        have inner : shared = true → Fits isStatic (without o table) := fun same =>
          (fits_without static (fits same o static member)).mp (fits same)
        rcases @loop_far _ _ isStatic _ _ _ far key with ⟨other, same⟩
        rw [same]
        exact .dynamic_cons here static
          (ih _ (lt_succ_of_le (min_le_left _ _)) (walk.dynamic here) inner other)

theorem named_of_leaves {this : RegistryTable ω}
    (leaves : (doTerminate shared isStatic this.fTable).2 = statics isStatic this.fTable)
    (dynamic : isStatic o = false) : Named this.fTable o := by
  rintro ⟨key, object⟩ member same unnamed
  cases same
  have kept := lt_of_lt_of_le (count_pos_iff.mpr member)
    (count_doTerminateLoop unnamed shared isStatic (new this.fTable false) this.fTable [])
  rw [doTerminate] at leaves
  rw [leaves] at kept
  have static := of_mem_filter (count_pos_iff.mp kept)
  rw [Option.any_some, dynamic] at static
  cases static

/-- The registry is cleaned up exactly if the entries of the dynamic objects
have names and, where the iterator shares the table, no dynamic object has
two names more than there are static entries behind its last one. -/
theorem terminatesCleanly_iff (shared : Bool) (isStatic : ω → Bool) (this : RegistryTable ω) :
    TerminatesCleanly shared isStatic this ↔ (∀ o, isStatic o = false → Named this.fTable o) ∧
        (shared = true → Fits isStatic this.fTable) := by
  have walk : (∀ o, isStatic o = false → Named this.fTable o) →
      Walk isStatic this.fTable this.fTable.length := fun named =>
    ⟨le_refl _, this.keysOk, this.objects, named, by
      rw [drop_length]
      nofun⟩
  constructor
  · intro cleanly
    have named : ∀ o, isStatic o = false → Named this.fTable o :=
      fun o dynamic => named_of_leaves cleanly.leaves dynamic
    exact ⟨named, ((walk named).leaves_iff []).mp cleanly.leaves⟩
  · rintro ⟨named, fits⟩
    exact ⟨(walk named).clean fits [], ((walk named).leaves_iff []).mpr fits⟩

/-- An object with two names leaves an entry behind. -/
theorem not_terminatesCleanly :
    ¬ ∀ this : RegistryTable Nat, TerminatesCleanly true (fun _ => false) this := by
  intro cleanly
  let this : RegistryTable Nat :=
    (create.registerRegisterableObject [97] 0).registerRegisterableObject [98] 0
  have leaves : (doTerminate true (fun _ => false) this.fTable).2 =
      statics (fun _ => false) this.fTable := (cleanly this).leaves
  have added : (doTerminate true (fun _ => false) this.fTable).2 = [([], none)] := by decide +kernel
  rw [added] at leaves
  cases leaves

end RegistryTable

end Coast
