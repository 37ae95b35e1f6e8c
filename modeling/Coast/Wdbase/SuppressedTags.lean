import Coast.Wdbase.ScrambledState
import Coast.Wdbase.URLFilter

/-!
# Suppressed tags do not leak in

Queries that agree apart from the suppressed tags agree when these are taken
out, and stay so while private state is added.
-/

namespace Coast

open List Option

namespace URLFilter

variable {this : URLFilter} {query query' : Slots AnyNode} {names : Bytes → Prop}

theorem lookup_nil (query : Slots AnyNode) : query.lookup [] = none := by
  have absent : query.findIndex [] = none := if_pos rfl
  rw [Slots.lookup, absent, bind_none]

theorem removeKey_nil (query : Slots AnyNode) : query.removeKey [] = query :=
  Slots.removeKey_of_none (if_pos rfl)

section

variable (agree : AgreeApart names query query')
include agree

theorem AgreeApart.lookup_eq (keysOk : query.KeysOk) (keysOk' : query'.KeysOk) {key : Bytes}
    (nulFree : NulFree key) (open_ : ¬ names key) :
    query.lookup key = query'.lookup key := by
  by_cases named : key = []
  · rw [named, lookup_nil, lookup_nil]
  · apply Option.ext
    intro value
    rw [keysOk.lookup_eq_some_iff nulFree named, keysOk'.lookup_eq_some_iff nulFree named]
    exact agree (key, value) open_

theorem AgreeApart.removeKey
    (keysOk : query.KeysOk) (keysOk' : query'.KeysOk) {key : Bytes} (nulFree : NulFree key) :
    AgreeApart names (query.removeKey key) (query'.removeKey key) := by
  by_cases named : key = []
  · rw [named, removeKey_nil, removeKey_nil]
    exact agree
  · intro slot open_
    rw [keysOk.mem_removeKey_iff nulFree named, keysOk'.mem_removeKey_iff nulFree named]
    exact and_congr_right fun _ => agree slot open_

theorem AgreeApart.symm : AgreeApart names query' query :=
  fun slot open_ => (agree slot open_).symm

theorem AgreeApart.removeKey_left
    (keysOk : query.KeysOk) {key : Bytes} (nulFree : NulFree key) (suppressed : names key) :
    AgreeApart names (query.removeKey key) query' := by
  by_cases named : key = []
  · rw [named, removeKey_nil]
    exact agree
  · intro slot open_
    rw [keysOk.mem_removeKey_iff nulFree named]
    apply Iff.trans _ (agree slot open_)
    refine ⟨And.right, fun member => ⟨fun same => open_ ?_, member⟩⟩
    rw [same]
    exact suppressed

end

theorem doFilterState_eq (query : Slots AnyNode) (slotName : Bytes) :
    doFilterState query slotName = query.removeKey slotName := by
  rw [doFilterState]
  split
  · rfl
  · rename_i absent
    rw [Slots.isDefined, Bool.not_eq_true, isSome_eq_false_iff, isNone_iff_eq_none] at absent
    exact (Slots.removeKey_of_none absent).symm

theorem filterTag_sublist (this : URLFilter) (query : Slots AnyNode) (entry : Bytes × Anything) :
    List.Sublist (this.filterTag query entry).2 query := by
  rw [filterTag]
  split
  · simp only []
    split
    · exact Slots.removeKey_sublist query _
    · exact List.Sublist.refl query
  · simp only []
    split
    · exact List.Sublist.refl query
    · rw [doFilterState_eq]
      exact Slots.removeKey_sublist query _

theorem keysOk_of_sublist {query query' : Slots AnyNode}
    (keysOk : query.KeysOk) (sub : List.Sublist query' query) :
    query'.KeysOk :=
  keysOk.of_sublist ((sub.map Prod.fst).filter _)

def Literal (entry : Bytes × Anything) : Prop := entry.1 = [] → ∃ value, entry.2 = .charPtr value

theorem filterTag_agree (agree : AgreeApart names query query') (keysOk : query.KeysOk)
    (keysOk' : query'.KeysOk) {entry : Bytes × Anything} (literal : Literal entry) :
    (this.filterTag query entry).1 = (this.filterTag query' entry).1 ∧
      AgreeApart names (this.filterTag query entry).2 (this.filterTag query' entry).2 := by
  rw [filterTag, filterTag]
  by_cases keyed : entry.1 ≠ []
  · have nulFree := nulFree_cstr entry.1
    rw [if_pos keyed, if_pos keyed]
    simp only []
    by_cases suppressed : names (cstr entry.1)
    · split <;> split
      · exact ⟨rfl, agree.removeKey keysOk keysOk' nulFree⟩
      · exact ⟨rfl, agree.removeKey_left keysOk nulFree suppressed⟩
      · exact ⟨rfl, (agree.symm.removeKey_left keysOk' nulFree suppressed).symm⟩
      · exact ⟨rfl, agree⟩
    · rw [agree.lookup_eq keysOk keysOk' nulFree suppressed]
      split
      · exact ⟨rfl, agree.removeKey keysOk keysOk' nulFree⟩
      · exact ⟨rfl, agree⟩
  · rcases literal (not_not.mp keyed) with ⟨value, isLiteral⟩
    rw [if_neg keyed, if_neg keyed, isLiteral]
    simp only [slotName, doFilterState_eq]
    split
    · exact ⟨rfl, agree⟩
    · exact ⟨rfl, agree.removeKey keysOk keysOk' (nulFree_cstr value)⟩

theorem filterStateLoop_sublist (this : URLFilter)
    (entries : Slots Anything) (query : Slots AnyNode) :
    List.Sublist (this.filterStateLoop entries query).2 query := by
  induction entries generalizing query with
  | nil => exact List.Sublist.refl query
  | cons entry entries ih =>
    exact (ih _).trans (this.filterTag_sublist query entry)

theorem filterStateLoop_agree {entries : Slots Anything}
    (literal : ∀ entry ∈ entries, Literal entry)
    (agree : AgreeApart names query query') (keysOk : query.KeysOk) (keysOk' : query'.KeysOk) :
    (this.filterStateLoop entries query).1 = (this.filterStateLoop entries query').1 ∧
      AgreeApart names (this.filterStateLoop entries query).2
        (this.filterStateLoop entries query').2 := by
  induction entries generalizing query query' with
  | nil => exact ⟨rfl, agree⟩
  | cons entry entries ih =>
    rcases @filterTag_agree this _ _ _ agree keysOk keysOk' _
      (literal entry mem_cons_self) with ⟨same, next⟩
    rcases ih (forall_mem_cons.mp literal).2 next
      (keysOk_of_sublist keysOk (this.filterTag_sublist query entry))
      (keysOk_of_sublist keysOk' (this.filterTag_sublist query' entry))
      with ⟨rest, last⟩
    exact ⟨congrArg₂ and same rest, last⟩

theorem filterStateLoop_absent {entries : Slots Anything} (keysOk : query.KeysOk) {value : Bytes}
    (named : cstr value ≠ []) (suppresses : ([], Anything.charPtr value) ∈ entries) :
    ∀ slot ∈ (this.filterStateLoop entries query).2, slot.1 ≠ cstr value := by
  induction entries generalizing query with
  | nil => cases suppresses
  | cons entry entries ih =>
    intro slot member
    rcases mem_cons.mp suppresses with rfl | later
    · have kept := (this.filterStateLoop_sublist entries _).subset member
      have whole : ¬ value.length = 0 := by
        intro empty
        rw [length_eq_zero_iff.mp empty] at named
        exact named rfl
      rw [filterTag, if_neg (not_not.mpr rfl)] at kept
      simp only [slotName, if_neg whole, doFilterState_eq] at kept
      exact ((keysOk.mem_removeKey_iff (nulFree_cstr value) named slot).mp kept).1
    · exact ih (keysOk_of_sublist keysOk (this.filterTag_sublist query entry)) later slot member

theorem suppress_sublist (this : URLFilter) (query : Slots AnyNode) (filterQueryConf : Anything) :
    List.Sublist (this.suppress query filterQueryConf).2 query := by
  rw [suppress]
  split
  · exact this.filterStateLoop_sublist _ query
  · exact List.Sublist.refl query

theorem suppress_absent {filterQueryConf : Anything} (keysOk : query.KeysOk) {name : Bytes}
    (suppresses : Suppresses filterQueryConf name) :
    ∀ slot ∈ (this.suppress query filterQueryConf).2, slot.1 ≠ name := by
  rcases suppresses with ⟨named, filters, value, found, inside, rfl⟩
  rw [suppress, found]
  exact filterStateLoop_absent keysOk named inside

theorem suppress_agree {filterQueryConf : Anything} (literal : LiteralTags filterQueryConf)
    (agree : AgreeApart (Suppresses filterQueryConf) query query')
    (keysOk : query.KeysOk) (keysOk' : query'.KeysOk) :
    (this.suppress query filterQueryConf).1 = (this.suppress query' filterQueryConf).1 ∧
      SameSlots (this.suppress query filterQueryConf).2
        (this.suppress query' filterQueryConf).2 := by
  have apart : (this.suppress query filterQueryConf).1 = (this.suppress query' filterQueryConf).1 ∧
      AgreeApart (Suppresses filterQueryConf) (this.suppress query filterQueryConf).2
        (this.suppress query' filterQueryConf).2 := by
    cases found : lookupSlot filterQueryConf (lit "Tags2Suppress") with
    | none =>
      simp only [suppress, found]
      exact ⟨trivial, agree⟩
    | some filters =>
      simp only [suppress, found]
      exact filterStateLoop_agree (literal.suppress filters found) agree keysOk keysOk'
  refine ⟨apart.1, fun slot => ?_⟩
  by_cases suppresses : Suppresses filterQueryConf slot.1
  · exact iff_of_false
      (fun member => suppress_absent keysOk suppresses slot member rfl)
      (fun member => suppress_absent keysOk' suppresses slot member rfl)
  · exact apart.2 slot suppresses

section

variable (same : SameSlots query query')
include same

variable (keysOk : query.KeysOk)
include keysOk

variable (keysOk' : query'.KeysOk)
include keysOk'

theorem SameSlots.lookup_eq {key : Bytes}
    (nulFree : NulFree key) : query.lookup key = query'.lookup key :=
  @AgreeApart.lookup_eq _ _ (fun _ => False) (fun slot _ => same slot) keysOk keysOk' _ nulFree id

theorem SameSlots.isDefined_eq {key : Bytes} (nulFree : NulFree key) :
    query.isDefined key = query'.isDefined key := by
  rw [query.isDefined_eq, query'.isDefined_eq, same.lookup_eq keysOk keysOk' nulFree]

theorem SameSlots.removeKey {key : Bytes} (nulFree : NulFree key) :
    SameSlots (query.removeKey key) (query'.removeKey key) := fun slot =>
  @AgreeApart.removeKey _ _ (fun _ => False) (fun slot _ => same slot)
    keysOk keysOk' _ nulFree slot id

theorem SameSlots.setKey {key : Bytes}
    (nulFree : NulFree key) (named : key ≠ []) (value : AnyNode) :
    SameSlots (query.setKey key value) (query'.setKey key value) := by
  intro slot
  rw [keysOk.mem_setKey_iff nulFree named, keysOk'.mem_setKey_iff nulFree named, same slot]

end

theorem getPrivateState_keysOk (keysOk : query.KeysOk)
    (state : Slots AnyNode) : (getPrivateState query state).KeysOk := by
  induction state generalizing query with
  | nil => exact keysOk
  | cons slot state ih =>
    rw [getPrivateState]
    apply ih
    split
    · exact keysOk.setKey (nulFree_cstr slot.1) slot.2
    · exact keysOk

theorem setKey_nil (query : Slots AnyNode) (value : AnyNode) :
    query.setKey [] value = query ++ [([], value)] := by
  have absent : query.findIndex [] = none := if_pos rfl
  rw [Slots.setKey, absent]
  rfl

theorem getPrivateState_same (same : SameSlots query query')
    (keysOk : query.KeysOk) (keysOk' : query'.KeysOk) (state : Slots AnyNode) :
    SameSlots (getPrivateState query state) (getPrivateState query' state) := by
  induction state generalizing query query' with
  | nil => exact same
  | cons slot state ih =>
    have nulFree := nulFree_cstr slot.1
    rw [getPrivateState, getPrivateState, same.isDefined_eq keysOk keysOk' nulFree]
    split
    · apply ih _ (keysOk.setKey nulFree slot.2) (keysOk'.setKey nulFree slot.2)
      by_cases named : cstr slot.1 = []
      · intro other
        rw [named, setKey_nil, setKey_nil, mem_append, mem_append, same other]
      · exact same.setKey keysOk keysOk' nulFree named slot.2
    · exact ih same keysOk keysOk'

theorem doUnscrambleState_keysOk (keysOk : query.KeysOk) (slotName : Bytes) :
    (this.doUnscrambleState query slotName).2.KeysOk := by
  rw [doUnscrambleState]
  split
  · exact keysOk
  · split
    · split
      · exact getPrivateState_keysOk (keysOk_of_sublist keysOk
          (Slots.removeKey_sublist query slotName)) _
      · exact keysOk
    · exact keysOk

theorem doUnscrambleState_same (same : SameSlots query query') (keysOk : query.KeysOk)
    (keysOk' : query'.KeysOk) {slotName : Bytes} (nulFree : NulFree slotName) :
    (this.doUnscrambleState query slotName).1 = (this.doUnscrambleState query' slotName).1 ∧
      SameSlots (this.doUnscrambleState query slotName).2
        (this.doUnscrambleState query' slotName).2 := by
  rw [doUnscrambleState, doUnscrambleState, same.lookup_eq keysOk keysOk' nulFree]
  split
  · exact ⟨rfl, same⟩
  · split
    · split
      · refine ⟨rfl, getPrivateState_same (same.removeKey keysOk keysOk' nulFree) ?_ ?_ _⟩
        · exact keysOk_of_sublist keysOk (Slots.removeKey_sublist _ _)
        · exact keysOk_of_sublist keysOk' (Slots.removeKey_sublist _ _)
      · exact ⟨rfl, same⟩
    · exact ⟨rfl, same⟩

theorem unscrambleStateLoop_same {filters : List Anything}
    (literal : ∀ filter ∈ filters, ∃ value, filter = .charPtr value)
    (same : SameSlots query query') (keysOk : query.KeysOk) (keysOk' : query'.KeysOk) :
    (this.unscrambleStateLoop filters query).1 = (this.unscrambleStateLoop filters query').1 ∧
      SameSlots (this.unscrambleStateLoop filters query).2
        (this.unscrambleStateLoop filters query').2 := by
  induction filters generalizing query query' with
  | nil => exact ⟨rfl, same⟩
  | cons filter filters ih =>
    rcases literal filter mem_cons_self with ⟨value, rfl⟩
    rcases @doUnscrambleState_same this _ _ same keysOk keysOk' _
      (nulFree_cstr value) with ⟨first, next⟩
    rcases ih (forall_mem_cons.mp literal).2 next (doUnscrambleState_keysOk keysOk _)
      (doUnscrambleState_keysOk keysOk' _) with ⟨rest, last⟩
    exact ⟨congrArg₂ and first rest, last⟩

/-! ## Where the slots come from -/

theorem mem_getPrivateState {state : Slots AnyNode} {slot : Bytes × AnyNode}
    (member : slot ∈ getPrivateState query state) :
    slot ∈ query ∨ ∃ entry ∈ state, slot = (cstr entry.1, entry.2) := by
  induction state generalizing query with
  | nil => exact .inl member
  | cons entry state ih =>
    rw [getPrivateState] at member
    rcases ih member with before | ⟨other, inside, same⟩
    · split at before
      · rename_i added
        have absent : query.findIndex (cstr entry.1) = none := by
          rw [← isNone_iff_eq_none, ← isSome_eq_false_iff]
          exact added.2
        rw [Slots.setKey, absent, mem_append, mem_singleton] at before
        rcases before with old | new
        · exact .inl old
        · refine .inr ⟨entry, mem_cons_self, ?_⟩
          rw [new, cstr_of_nulFree (nulFree_cstr entry.1)]
      · exact .inl before
    · exact .inr ⟨other, mem_cons_of_mem entry inside, same⟩

theorem mem_doUnscrambleState {slotName : Bytes} {slot : Bytes × AnyNode}
    (member : slot ∈ (this.doUnscrambleState query slotName).2) :
    slot ∈ query ∨ ∃ value state, query.lookup slotName = some value ∧
      this.unscramble value.charPtrText = some state ∧
      ∃ entry ∈ state, slot = (cstr entry.1, entry.2) := by
  rw [doUnscrambleState] at member
  split at member
  · exact .inl member
  · rename_i value found
    split at member
    · split at member
      · rename_i state reads
        rcases mem_getPrivateState member with before | fromState
        · exact .inl ((Slots.removeKey_sublist query slotName).subset before)
        · exact .inr ⟨value, state, found, reads, fromState⟩
      · exact .inl member
    · exact .inl member

theorem mem_unscrambleStateLoop {filters : List Anything} {slot : Bytes × AnyNode}
    (member : slot ∈ (this.unscrambleStateLoop filters query).2) :
    slot ∈ query ∨ this.FromTags query filters slot := by
  induction filters generalizing query with
  | nil => exact .inl member
  | cons filter filters ih =>
    rcases ih member with here |
      ⟨before, tag, after, there, value, state, entry, rfl, reached, rest⟩
    · rcases mem_doUnscrambleState here with old |
        ⟨value, state, found, reads, entry, inside, same⟩
      · exact .inl old
      · exact .inr ⟨[], filter, filters, query, value, state, entry, rfl,
          rfl, found, reads, inside, same⟩
    · exact .inr ⟨filter :: before, tag, after, there, value, state, entry, rfl, reached, rest⟩

/-- The result does not depend on the tags that are suppressed, and a
suppressed tag that is in it comes from private state. -/
theorem handleQuery_suppresses (this : URLFilter) {filterQueryConf : Anything}
    (literal : LiteralTags filterQueryConf) {query query' : Slots AnyNode} (keysOk : query.KeysOk)
    (keysOk' : query'.KeysOk) (agree : AgreeApart (Suppresses filterQueryConf) query query') :
    (this.handleQuery query filterQueryConf).1 = (this.handleQuery query' filterQueryConf).1 ∧
      SameSlots (this.handleQuery query filterQueryConf).2
        (this.handleQuery query' filterQueryConf).2 ∧
      ∀ slot ∈ (this.handleQuery query filterQueryConf).2,
        Suppresses filterQueryConf slot.1 → this.FromState query filterQueryConf slot := by
  rcases @suppress_agree this _ _ _ literal agree keysOk keysOk' with ⟨same, left⟩
  have absent : ∀ slot ∈ (this.suppress query filterQueryConf).2,
      ¬ Suppresses filterQueryConf slot.1 := fun slot member suppresses =>
    suppress_absent keysOk suppresses slot member rfl
  rw [handleQuery, handleQuery, ← same]
  split
  · cases found : lookupSlot filterQueryConf (lit "Tags2Unscramble") with
    | none =>
      exact ⟨rfl, left, fun slot member suppresses =>
        absurd suppresses (absent slot member)⟩
    | some unscramblers =>
      have literals : ∀ filter ∈ unscramblers.slots.map Prod.snd,
          ∃ value, filter = .charPtr value := by
        intro filter member
        rcases mem_map.mp member with ⟨entry, inside, rfl⟩
        exact literal.unscramble unscramblers found entry inside
      have alike := @unscrambleStateLoop_same this _ _ _ literals left
        (keysOk_of_sublist keysOk (this.suppress_sublist query _))
        (keysOk_of_sublist keysOk' (this.suppress_sublist query' _))
      refine ⟨alike.1, alike.2, fun slot member suppresses => ?_⟩
      rcases mem_unscrambleStateLoop member with old | fromTags
      · exact absurd suppresses (absent slot old)
      · exact ⟨unscramblers, found, fromTags⟩
  · exact ⟨rfl, left, fun slot member suppresses =>
      absurd suppresses (absent slot member)⟩

/-- A filter that suppresses the role and unscrambles `X`. -/
def roleFilter : URLFilter :=
  ⟨SecurityModule.standardModule (lit "URLEncoder"),
    ⟨fun _ => none, fun _ => none⟩, 0, fun _ _ => []⟩

def roleConf : Anything :=
  .array [(lit "Tags2Suppress", .array [([], .charPtr (lit "role"))]),
    (lit "Tags2Unscramble", .array [([], .charPtr (lit "X"))])]

/-- A query with a role of the client, and private state in `X`. -/
def roleQuery (role : Bytes) : Slots AnyNode :=
  [(lit "role", ⟨[.charPtr role], some 0⟩),
    (lit "X", ⟨[.charPtr (roleFilter.securityModule.scrambleState
      SecurityModule.noRandomNumbers
      TableCompressor.startPage.val)], some 0⟩)]

theorem handleQuery_suppresses_role :
    (roleFilter.handleQuery (roleQuery (lit "WDAdmin")) roleConf).1 =
        (roleFilter.handleQuery (roleQuery (lit "WDGuest")) roleConf).1 ∧
      SameSlots (roleFilter.handleQuery (roleQuery (lit "WDAdmin")) roleConf).2
        (roleFilter.handleQuery (roleQuery (lit "WDGuest")) roleConf).2 ∧
      ∀ slot ∈ (roleFilter.handleQuery (roleQuery (lit "WDAdmin")) roleConf).2,
        Suppresses roleConf slot.1 →
          roleFilter.FromState (roleQuery (lit "WDAdmin")) roleConf slot := by
  have suppress : lookupSlot roleConf (lit "Tags2Suppress") =
      some (.array [([], .charPtr (lit "role"))]) := rfl
  have unscramble : lookupSlot roleConf (lit "Tags2Unscramble") =
      some (.array [([], .charPtr (lit "X"))]) := rfl
  have keysOk : ∀ role, Slots.KeysOk (roleQuery role) := fun _ =>
    ⟨(by decide : [lit "role", lit "X"].Nodup), by
      intro key member
      have names : ∀ name ∈ [lit "role", lit "X"], NulFree name := by decide
      exact names key member⟩
  have suppressed : Suppresses roleConf (lit "role") :=
    ⟨by decide, _, lit "role", suppress, mem_cons_self, by decide⟩
  refine handleQuery_suppresses roleFilter ⟨?_, ?_⟩ (keysOk _) (keysOk _) ?_
  · intro filters found
    rw [suppress] at found
    cases found
    intro entry member _
    cases mem_singleton.mp member
    exact ⟨_, rfl⟩
  · intro filters found
    rw [unscramble] at found
    cases found
    intro entry member
    cases mem_singleton.mp member
    exact ⟨_, rfl⟩
  · intro slot open_
    have other : slot.1 ≠ lit "role" := by
      intro same
      rw [same] at open_
      exact open_ suppressed
    simp only [roleQuery, mem_cons, not_mem_nil, or_false]
    apply or_congr_left
    constructor <;> rintro rfl <;> exact absurd rfl other

end URLFilter

end Coast
