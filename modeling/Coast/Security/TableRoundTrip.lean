import Coast.Security.ShortNames

/-!
# Expanding what was compressed

The expansion restores the slots that the compression keeps when originals
and short names can be told apart.
-/

namespace Coast

open Heap List

namespace TableCompressor

/-- The tables that `Init` makes. -/
structure Sound (tables : TableCompressor) : Prop where
  names : Reverses tables.uri2KeyMap tables.key2UriMap
  values : Reverses tables.uri2ValMap tables.val2UriMap

theorem init_sound (config : Bytes → Option Anything) : (init config).2.Sound := by
  unfold init
  split
  · exact ⟨reverses_nil, reverses_nil⟩
  · exact ⟨(shortNames_makeTable _ _).reverses, (shortNames_makeTable _ _).reverses⟩

variable (tables : TableCompressor)

/-- A slot that `DoCompress` does not leave out. -/
def keeps (slot : Bytes × Anything) : Bool :=
  !(tables.key2UriMap.isDefined slot.1 && slot.2.charPtrText = [])

def kept (any : Anything) : Slots Anything := any.slots.filter tables.keeps

def Tagged (slot : Bytes × Anything) : Prop :=
  tables.key2UriMap.isDefined slot.1 = true ∧ tables.valMapTags.contains slot.1 = true

instance (slot : Bytes × Anything) : Decidable (tables.Tagged slot) :=
  inferInstanceAs (Decidable (_ ∧ _))

/-- The originals of a slot are not mistaken for short names. -/
structure ToldApart (slot : Bytes × Anything) : Prop where
  /-- a name that is not listed is no short name -/
  name : tables.key2UriMap.isDefined slot.1 = false → tables.uri2KeyMap.isDefined slot.1 = false
  /-- a listed value is a String -/
  listed : tables.Tagged slot →
    tables.val2UriMap.isDefined slot.2.charPtrText = true → slot.2 = .charPtr slot.2.charPtrText
  /-- a value that is not listed does not read as a short value -/
  unlisted : tables.Tagged slot → tables.val2UriMap.isDefined slot.2.charPtrText = false →
      tables.uri2ValMap.isDefined slot.2.charPtrText = false

def shortSlot (slot : Bytes × Anything) : Bytes × Anything := (tables.compressSlot slot).getD slot

theorem filterMap_compressSlot (slots : Slots Anything) :
    slots.filterMap tables.compressSlot = (slots.filter tables.keeps).map tables.shortSlot := by
  have turn : ∀ slot, tables.compressSlot slot =
      if tables.keeps slot then some (tables.shortSlot slot) else none := by
    intro slot
    unfold shortSlot keeps compressSlot
    rw [Slots.isDefined_eq]
    cases tables.key2UriMap.lookup slot.1 with
    | none => rfl
    | some extSlotname =>
      by_cases empty : slot.2.charPtrText = []
      · simp [empty]
      · simp only [empty, if_false, decide_false, Bool.and_false, Bool.not_false, if_true]
        split
        · split <;> rfl
        · rfl
  induction slots with
  | nil => rfl
  | cons slot slots ih =>
    rw [filterMap_cons, turn]
    by_cases keep : tables.keeps slot = true
    · rw [if_pos keep, filter_cons_of_pos keep, map_cons, ← ih]
    · rw [if_neg keep, filter_cons_of_neg keep, ih]

variable {tables}

variable {slot : Bytes × Anything}

private theorem shortSlot_unlisted (nulFree : NulFree slot.1)
    (found : tables.key2UriMap.lookup slot.1 = none) :
    tables.shortSlot slot = slot := by
  simp [shortSlot, compressSlot, found, cstr_of_nulFree nulFree]

variable {extSlotname : Bytes}

private theorem shortSlot_untagged (nulFree : NulFree slot.1)
    (found : tables.key2UriMap.lookup slot.1 = some extSlotname) (shortFree : NulFree extSlotname)
    (text : slot.2.charPtrText ≠ []) (untagged : tables.valMapTags.contains slot.1 = false) :
    tables.shortSlot slot = (extSlotname, slot.2) := by
  simp [shortSlot, compressSlot, found, text, untagged,
    cstr_of_nulFree nulFree, cstr_of_nulFree shortFree]

private theorem shortSlot_tagged (nulFree : NulFree slot.1)
    (found : tables.key2UriMap.lookup slot.1 = some extSlotname) (shortFree : NulFree extSlotname)
    (text : slot.2.charPtrText ≠ []) (tagged : tables.valMapTags.contains slot.1 = true) :
    tables.shortSlot slot = (extSlotname,
      match tables.val2UriMap.lookup slot.2.charPtrText with
      | some value => .charPtr (cstr value)
      | none => slot.2) := by
  simp only [shortSlot, compressSlot, found, text, tagged,
    cstr_of_nulFree nulFree, cstr_of_nulFree shortFree, if_false, if_true]
  cases tables.val2UriMap.lookup slot.2.charPtrText <;> rfl

private theorem expandedSlot_short {name : Bytes} (nulFree : NulFree name)
    (asked : tables.uri2KeyMap.lookup extSlotname = some name) (value : Anything) :
    tables.expandedSlot (extSlotname, value) = (name,
      if tables.valMapTags.contains name then
        match value.asCharPtr.bind tables.uri2ValMap.lookup with
        | some text => .charPtr (cstr text)
        | none => value
      else value) := by
  simp only [expandedSlot, expandSlot, asked, cstr_of_nulFree nulFree]
  by_cases tagged : tables.valMapTags.contains name = true
  · simp only [tagged, if_true]
    cases value.asCharPtr.bind tables.uri2ValMap.lookup <;> rfl
  · simp only [tagged]
    rfl

private theorem asCharPtr_of_text {value : Anything} (text : value.charPtrText ≠ []) :
    value.asCharPtr = some value.charPtrText := by
  unfold Anything.charPtrText at text ⊢
  cases shown : value.asCharPtr with
  | none =>
    rw [shown] at text
    exact absurd rfl text
  | some _ => rfl

section

variable (sound : tables.Sound)
include sound

private theorem restored_unlisted {name : Bytes} {value : Anything} (nulFree : NulFree name)
    (found : tables.key2UriMap.lookup name = none) :
    tables.expandedSlot (tables.shortSlot (name, value)) = (name, value) ↔
      tables.ToldApart (name, value) := by
  have notTagged : ¬ tables.Tagged (name, value) := by
    intro tagged
    have defined := tagged.1
    simp [Slots.isDefined_eq, found] at defined
  rw [shortSlot_unlisted nulFree found]
  cases asked : tables.uri2KeyMap.lookup name with
  | none =>
    have same : tables.expandedSlot (name, value) = (name, value) := by
      simp [expandedSlot, expandSlot, asked, cstr_of_nulFree nulFree]
    refine ⟨fun _ => ⟨fun _ => ?_, ?_, ?_⟩, fun _ => same⟩
    · simp [Slots.isDefined_eq, asked]
    · exact fun tagged => absurd tagged notTagged
    · exact fun tagged => absurd tagged notTagged
  | some intSlotname =>
    have back := sound.names.back _ _ nulFree asked
    constructor
    · intro restored
      have same : intSlotname = name := by
        have first := congrArg Prod.fst restored
        rw [expandedSlot_short back.1 asked] at first
        exact first
      rw [same, found] at back
      exact absurd (back.2 (lookup_named asked)) (by simp)
    · intro apart
      have noShort := apart.name (by simp [Slots.isDefined_eq, found])
      simp [Slots.isDefined_eq, asked] at noShort

private theorem restored_tagged {name : Bytes} {value : Anything} (nulFree : NulFree name)
    (found : tables.key2UriMap.lookup name = some extSlotname) (text : value.charPtrText ≠ [])
    (tagged : tables.valMapTags.contains name = true) :
    tables.expandedSlot (tables.shortSlot (name, value)) = (name, value) ↔
      tables.ToldApart (name, value) := by
  have back := sound.names.forth _ _ nulFree found
  have isTagged : tables.Tagged (name, value) := ⟨by simp [Slots.isDefined_eq, found], tagged⟩
  have listedName : tables.key2UriMap.isDefined name = true := isTagged.1
  have textFree := Anything.nulFree_charPtrText value
  rw [shortSlot_tagged nulFree found back.1 text tagged,
    expandedSlot_short nulFree back.2.2, tagged, if_pos rfl]
  cases short : tables.val2UriMap.lookup value.charPtrText with
  | some shortValue =>
    have original := sound.values.forth _ _ textFree short
    simp only [Anything.asCharPtr, cstr_of_nulFree original.1,
      Option.bind_some, original.2.2, cstr_of_nulFree textFree]
    constructor
    · intro restored
      refine ⟨fun unlisted => absurd unlisted (by simp [listedName]),
        fun _ _ => (congrArg Prod.snd restored).symm, ?_⟩
      intro _ unlisted
      simp [Slots.isDefined_eq, short] at unlisted
    · intro apart
      exact Prod.ext rfl (apart.listed isTagged (by simp [Slots.isDefined_eq, short])).symm
  | none =>
    simp only [asCharPtr_of_text text, Option.bind_some]
    cases asked : tables.uri2ValMap.lookup value.charPtrText with
    | none =>
      refine ⟨fun _ => ⟨fun unlisted => ?_, ?_, ?_⟩, fun _ => rfl⟩
      · exact absurd unlisted (by simp [listedName])
      · intro _ listed
        simp [Slots.isDefined_eq, short] at listed
      · intro _ _
        simp [Slots.isDefined_eq, asked]
    | some original =>
      have listed := sound.values.back _ _ textFree asked
      constructor
      · intro restored
        have string : .charPtr (cstr original) = value := congrArg Prod.snd restored
        rw [cstr_of_nulFree listed.1] at string
        have same : value.charPtrText = original := by
          rw [← string]
          exact cstr_of_nulFree listed.1
        rw [← same, short] at listed
        exact absurd (listed.2 text) (by simp)
      · intro apart
        have noShort := apart.unlisted isTagged (by simp [Slots.isDefined_eq, short])
        simp [Slots.isDefined_eq, asked] at noShort

theorem expandedSlot_shortSlot_iff (nulFree : NulFree slot.1) (keep : tables.keeps slot = true) :
    tables.expandedSlot (tables.shortSlot slot) = slot ↔ tables.ToldApart slot := by
  obtain ⟨name, value⟩ := slot
  unfold keeps at keep
  rw [Slots.isDefined_eq] at keep
  cases found : tables.key2UriMap.lookup name with
  | none => exact restored_unlisted sound nulFree found
  | some extSlotname =>
    have text : value.charPtrText ≠ [] := by
      simpa [found] using keep
    by_cases tagged : tables.valMapTags.contains name = true
    · exact restored_tagged sound nulFree found text tagged
    · have back := sound.names.forth _ _ nulFree found
      have untagged : tables.valMapTags.contains name = false := by
        simpa using tagged
      rw [shortSlot_untagged nulFree found back.1 text untagged,
        expandedSlot_short nulFree back.2.2, untagged]
      refine ⟨fun _ => ⟨fun unlisted => ?_, ?_, ?_⟩, fun _ => rfl⟩
      · simp [Slots.isDefined_eq, found] at unlisted
      · exact fun isTagged => absurd isTagged.2 tagged
      · exact fun isTagged => absurd isTagged.2 tagged

theorem shortSlot_shape (nulFree : NulFree slot.1) (keep : tables.keeps slot = true) :
    NulFree (tables.shortSlot slot).1 ∧ ((tables.shortSlot slot).1 = [] ↔ slot.1 = []) ∧
      ((tables.shortSlot slot).2 = slot.2 ∨ ∃ text, (tables.shortSlot slot).2 = .charPtr text) := by
  unfold keeps at keep
  rw [Slots.isDefined_eq] at keep
  cases found : tables.key2UriMap.lookup slot.1 with
  | none =>
    rw [shortSlot_unlisted nulFree found]
    exact ⟨nulFree, Iff.rfl, Or.inl rfl⟩
  | some extSlotname =>
    have text : slot.2.charPtrText ≠ [] := by simpa [found] using keep
    have back := sound.names.forth _ _ nulFree found
    have named := lookup_named found
    by_cases tagged : tables.valMapTags.contains slot.1 = true
    · rw [shortSlot_tagged nulFree found back.1 text tagged]
      refine ⟨back.1, iff_of_false back.2.1 named, ?_⟩
      cases tables.val2UriMap.lookup slot.2.charPtrText with
      | none => exact Or.inl rfl
      | some value => exact Or.inr ⟨_, rfl⟩
    · rw [shortSlot_untagged nulFree found back.1 text (by simpa using tagged)]
      exact ⟨back.1, iff_of_false back.2.1 named, Or.inl rfl⟩

end

theorem expandedSlot_shape (tables : TableCompressor) (slot : Bytes × Anything) :
    NulFree (tables.expandedSlot slot).1 ∧ ((tables.expandedSlot slot).2 = slot.2 ∨
        ∃ text, (tables.expandedSlot slot).2 = .charPtr text) := by
  unfold expandedSlot expandSlot
  cases tables.uri2KeyMap.lookup slot.1 with
  | none => exact ⟨nulFree_cstr _, Or.inl rfl⟩
  | some intSlotname =>
    by_cases tagged : tables.valMapTags.contains (cstr intSlotname) = true
    · simp only [tagged, if_true]
      cases (slot.2.asCharPtr.bind tables.uri2ValMap.lookup).map cstr with
      | none => exact ⟨nulFree_cstr _, Or.inl rfl⟩
      | some text => exact ⟨nulFree_cstr _, Or.inr ⟨text, rfl⟩⟩
    · simp only [tagged]
      exact ⟨nulFree_cstr _, Or.inl rfl⟩

theorem expandedSlot_name (slot : Bytes × Anything) :
    (tables.expandedSlot slot).1 = (tables.expandSlot slot.1 none).1 := by
  unfold expandedSlot expandSlot
  cases tables.uri2KeyMap.lookup slot.1 with
  | none => rfl
  | some intSlotname =>
    by_cases tagged : tables.valMapTags.contains (cstr intSlotname) = true
    · simp only [tagged, if_true]
      cases (slot.2.asCharPtr.bind tables.uri2ValMap.lookup).map cstr <;> rfl
    · simp only [tagged]
      rfl

variable {slots : Slots Anything}

private theorem keys_map_shortSlot (sound : tables.Sound)
    (all : ∀ slot ∈ slots, NulFree slot.1 ∧ tables.keeps slot = true ∧
      tables.expandedSlot (tables.shortSlot slot) = slot) :
    (Slots.keys (slots.map tables.shortSlot)).map
        (fun name => (tables.expandSlot name none).1) =
      slots.keys := by
  induction slots with
  | nil => rfl
  | cons slot slots ih =>
    have rest := ih (forall_mem_cons.mp all).2
    have first := all slot (by simp)
    have shape := shortSlot_shape sound first.1 first.2.1
    have back : (tables.expandSlot (tables.shortSlot slot).1 none).1 = slot.1 := by
      rw [← expandedSlot_name, first.2.2]
    rw [map_cons, Slots.keys_cons, map_append, rest, Slots.keys_cons]
    by_cases unnamed : slot.1 = []
    · rw [if_pos unnamed, if_pos (shape.2.1.mpr unnamed)]
      rfl
    · rw [if_neg unnamed, if_neg (mt shape.2.1.mp unnamed), map_cons, back]
      rfl

theorem shortSlots_keysOk (sound : tables.Sound) (keysOk : slots.KeysOk)
    (all : ∀ slot ∈ slots, NulFree slot.1 ∧ tables.keeps slot = true ∧
      tables.expandedSlot (tables.shortSlot slot) = slot) :
    Slots.KeysOk (slots.map tables.shortSlot) := by
  have names := keys_map_shortSlot sound all
  refine ⟨List.Nodup.of_map _ (by rw [names]; exact keysOk.distinct), ?_⟩
  intro name member
  rcases mem_map.mp (mem_filter.mp member).1 with ⟨short, inside, rfl⟩
  rcases mem_map.mp inside with ⟨slot, original, rfl⟩
  exact (shortSlot_shape sound (all slot original).1 (all slot original).2.1).1

/-- The expansion of the compressed text succeeds with this Anything. -/
def Restores (tables : TableCompressor) (env : ParserEnv) (depth : Nat)
    (data : PlainAnything) (any : Anything) : Prop :=
  (tables.doExpand env depth (tables.doCompress data)).ok = true ∧
    Unfolds (tables.doExpand env depth (tables.doCompress data)).heap any
      (tables.doExpand env depth (tables.doCompress data)).any

theorem slots_plain {any : Anything} (plain : any.Plain) :
    any.slots.KeysOk ∧ Anything.PlainSlots any.slots := by
  cases any with
  | array slots => exact plain
  | null => exact ⟨⟨by decide, by decide⟩, trivial⟩
  | _ => exact ⟨⟨nodup_nil, fun _ => nofun⟩, plain, trivial⟩

theorem anyOf_plain (keysOk : slots.KeysOk)
    (plain : Anything.PlainSlots slots) : (anyOf slots).Plain := by
  rcases anyOf_cases slots with ⟨-, same⟩ | ⟨-, same⟩
  · rw [same]
    trivial
  · rw [same]
    exact ⟨keysOk, plain⟩

theorem anyOf_longsApart : (anyOf slots).LongsApart ↔ Anything.LongsApartSlots slots := by
  cases slots with
  | nil => exact Iff.rfl
  | cons slot slots => exact Iff.rfl

theorem plainSlots_iff : Anything.PlainSlots slots ↔ ∀ slot ∈ slots, slot.2.Plain := by
  induction slots with
  | nil => exact ⟨fun _ _ => nofun, fun _ => trivial⟩
  | cons slot slots ih =>
    rw [forall_mem_cons, ← ih]
    exact Iff.rfl

variable {change : Bytes × Anything → Bytes × Anything}

theorem plainSlots_map
    (shape : ∀ slot ∈ slots, (change slot).2 = slot.2 ∨ ∃ text, (change slot).2 = .charPtr text)
    (plain : Anything.PlainSlots slots) :
    Anything.PlainSlots (slots.map change) := by
  rw [plainSlots_iff] at plain ⊢
  intro changed member
  rcases mem_map.mp member with ⟨slot, inside, rfl⟩
  rcases shape slot inside with same | ⟨text, same⟩
  · rw [same]
    exact plain slot inside
  · rw [same]
    trivial

private theorem kept_facts (tables : TableCompressor) (data : PlainAnything) :
    (tables.kept data).KeysOk ∧ Anything.PlainSlots (tables.kept data) ∧
      ∀ slot ∈ tables.kept data, NulFree slot.1 ∧ tables.keeps slot = true := by
  obtain ⟨keysOk, plain⟩ := slots_plain data.property
  refine ⟨keysOk.of_sublist ((filter_sublist.map Prod.fst).filter _), ?_, ?_⟩
  · rw [plainSlots_iff] at plain ⊢
    exact fun slot member => plain slot (mem_filter.mp member).1
  · intro slot member
    have inside := mem_filter.mp member
    exact ⟨keysOk.nulFree_name slot inside.1, inside.2⟩

theorem restores_kept (sound : tables.Sound) (env : ParserEnv) (depth : Nat) (data : PlainAnything)
    (apart : ∀ slot ∈ data.val.slots, tables.ToldApart slot)
    (longs : Anything.LongsApartSlots (tables.kept data)) :
    Restores tables env depth data (anyOf (tables.kept data)) := by
  obtain ⟨keysOk, plain, kept⟩ := kept_facts tables data
  have back : ∀ slot ∈ tables.kept data, tables.expandedSlot (tables.shortSlot slot) = slot := by
    intro slot member
    have inside := kept slot member
    exact (expandedSlot_shortSlot_iff sound inside.1 inside.2).mpr
      (apart slot (mem_filter.mp member).1)
  have shortOk := shortSlots_keysOk sound keysOk fun slot member =>
    ⟨(kept slot member).1, (kept slot member).2, back slot member⟩
  have shape := fun slot member =>
    shortSlot_shape sound (kept slot member).1 (kept slot member).2
  have shortPlain := plainSlots_map (fun slot member => (shape slot member).2.2) plain
  have shortLongs := Anything.longsApart_map tables.shortSlot
    (fun slot member => ⟨(shape slot member).2.1.mp, (shape slot member).2.2⟩) longs
  have compressed : tables.compressed data = (tables.kept data).map tables.shortSlot := by
    unfold TableCompressor.compressed
    rw [filterMap_compressSlot]
    exact Slots.setKeys_of_keysOk (show Slots.KeysOk ([] ++ _) from shortOk)
  have expanded : tables.expanded
      (anyOf ((tables.kept data).map tables.shortSlot)) = tables.kept data := by
    have all : (tables.kept data).map
        (tables.expandedSlot ∘ tables.shortSlot) = tables.kept data :=
      (map_congr_left back).trans (map_id _)
    unfold TableCompressor.expanded
    rw [slots_anyOf, map_map, all]
    exact Slots.setKeys_of_keysOk (show Slots.KeysOk ([] ++ _) from keysOk)
  have plain := anyOf_plain shortOk shortPlain
  have seen := (unfolds_printOn_compact_iff env depth ⟨_, plain⟩).mpr
    (anyOf_longsApart.mpr shortLongs)
  have result := tables.doExpand_unfolds env depth
    ⟨importText_printOn_compact_ok env depth ⟨_, plain⟩, seen⟩
  rw [expanded] at result
  unfold Restores doCompress
  rw [compressed]
  exact result

/-- What is kept is restored, whatever the configuration. -/
theorem doExpand_doCompress (config : Bytes → Option Anything) (env : ParserEnv) (depth : Nat)
    (data : PlainAnything) (apart : ∀ slot ∈ data.val.slots, (init config).2.ToldApart slot)
    (longs : Anything.LongsApartSlots ((init config).2.kept data)) :
    Restores (init config).2 env depth data
      (anyOf ((init config).2.kept data)) :=
  restores_kept (init_sound config) env depth data apart longs

/-! ## Exactly when everything is restored -/

theorem nodes_append (left right : Slots Anything) :
    Anything.nodesSlots (left ++ right) = Anything.nodesSlots left + Anything.nodesSlots right := by
  induction left with
  | nil => exact (Nat.zero_add _).symm
  | cons slot left ih =>
    rw [cons_append, Anything.nodesSlots, Anything.nodesSlots, ih]
    omega

private theorem nodes_setIndex (value : Anything) :
    ∀ (slots : Slots Anything) (i : Nat),
      Anything.nodesSlots (slots.setIndex i value) ≤ Anything.nodesSlots slots + value.nodes
  | [], i => by cases i <;> exact Nat.zero_le _
  | (key, old) :: slots, 0 => by
      have shape : Slots.setIndex ((key, old) :: slots) 0 value = (key, value) :: slots := rfl
      rw [shape, Anything.nodesSlots, Anything.nodesSlots]
      omega
  | (key, old) :: slots, i + 1 => by
      have rest := nodes_setIndex value slots i
      have shape : Slots.setIndex ((key, old) :: slots) (i + 1) value =
        (key, old) :: Slots.setIndex slots i value := rfl
      rw [shape, Anything.nodesSlots, Anything.nodesSlots]
      omega

theorem nodes_setKeys (added : Slots Anything) (nulFree : ∀ slot ∈ added, NulFree slot.1) :
    ∀ slots : Slots Anything, Anything.nodesSlots (slots.setKeys added) ≤
          Anything.nodesSlots slots + Anything.nodesSlots added ∧
        (Anything.nodesSlots (slots.setKeys added) =
            Anything.nodesSlots slots + Anything.nodesSlots added →
          slots.setKeys added = slots ++ added) := by
  induction added with
  | nil =>
    intro slots
    exact ⟨Nat.le_refl _, fun _ => (append_nil slots).symm⟩
  | cons slot added ih =>
    intro slots
    obtain ⟨key, value⟩ := slot
    have rest := ih (forall_mem_cons.mp nulFree).2 (slots.setKey key value)
    have unfolded : slots.setKeys ((key, value) :: added) =
      (slots.setKey key value).setKeys added := rfl
    rw [unfolded, Anything.nodesSlots]
    unfold Slots.setKey at rest ⊢
    cases found : slots.findIndex key with
    | some i =>
      simp only [found] at rest ⊢
      have less := nodes_setIndex value slots i
      exact ⟨by omega, fun same => by omega⟩
    | none =>
      have sameKey : cstr key = key := cstr_of_nulFree (nulFree (key, value) (by simp))
      simp only [found, sameKey] at rest ⊢
      rw [nodes_append, Anything.nodesSlots, Anything.nodesSlots] at rest
      refine ⟨by omega, fun same => ?_⟩
      rw [rest.2 (by omega), append_assoc]
      rfl

private theorem nodes_filter (keep : Bytes × Anything → Bool) (slots : Slots Anything) :
    Anything.nodesSlots (slots.filter keep) ≤ Anything.nodesSlots slots ∧
      (Anything.nodesSlots (slots.filter keep) =
        Anything.nodesSlots slots → slots.filter keep = slots) := by
  induction slots with
  | nil => exact ⟨Nat.le_refl _, fun _ => rfl⟩
  | cons slot slots ih =>
    by_cases kept : keep slot = true
    · rw [filter_cons_of_pos kept, Anything.nodesSlots, Anything.nodesSlots]
      refine ⟨by omega, fun same => ?_⟩
      rw [ih.2 (by omega)]
    · rw [filter_cons_of_neg kept, Anything.nodesSlots]
      exact ⟨by omega, fun same => by omega⟩

private theorem nodes_map (slots : Slots Anything)
    (shape : ∀ slot ∈ slots, (change slot).2 = slot.2 ∨ ∃ text, (change slot).2 = .charPtr text) :
    Anything.nodesSlots (slots.map change) ≤ Anything.nodesSlots slots := by
  induction slots with
  | nil => exact Nat.le_refl _
  | cons slot slots ih =>
    have rest := ih (forall_mem_cons.mp shape).2
    have first : (change slot).2.nodes ≤ slot.2.nodes := by
      rcases shape slot (by simp) with same | ⟨text, same⟩
      · rw [same]
      · rw [same]
        exact Nat.zero_le _
    rw [map_cons, Anything.nodesSlots, Anything.nodesSlots]
    omega

private theorem nodes_anyOf (slots : Slots Anything) :
    (anyOf slots).nodes = Anything.nodesSlots slots := by
  cases slots <;> rfl

private theorem nodes_imported (slots : Slots Anything) :
    Anything.nodesSlots (AnyText.ofAny false (anyOf slots)).tree.slots =
      (AnyText.ofAny false (anyOf slots)).tree.nodes := by
  cases slots <;> rfl

private theorem plainSlots_setKeys {added : Slots Anything}
    (addedPlain : ∀ slot ∈ added, slot.2.Plain) :
    ∀ {slots : Slots Anything}, (∀ slot ∈ slots, slot.2.Plain) →
      ∀ slot ∈ slots.setKeys added, slot.2.Plain := by
  induction added with
  | nil => exact fun plain => plain
  | cons slot added ih =>
    intro slots plain
    apply ih (forall_mem_cons.mp addedPlain).2
    intro other member
    rcases Slots.mem_setKey other member with new | ⟨old, inside, same⟩
    · rw [new]
      exact addedPlain slot (by simp)
    · rw [← same]
      exact plain old inside

private theorem nulFree_of_mem_map (nulFree : ∀ slot ∈ slots, NulFree (change slot).1) :
    ∀ slot ∈ slots.map change, NulFree slot.1 := by
  intro changed member
  rcases mem_map.mp member with ⟨slot, inside, rfl⟩
  exact nulFree slot inside

section

variable (sound : tables.Sound)
include sound

private theorem compressed_plain
    (data : PlainAnything) : (anyOf (tables.compressed data)).Plain := by
  obtain ⟨-, plain, kept⟩ := kept_facts tables data
  have shape := fun slot member =>
    shortSlot_shape sound (kept slot member).1 (kept slot member).2
  unfold TableCompressor.compressed
  rw [filterMap_compressSlot]
  apply anyOf_plain
  · apply Slots.KeysOk.setKeys
    · exact nulFree_of_mem_map fun slot member => (shape slot member).1
    · exact ⟨nodup_nil, fun _ => nofun⟩
  · rw [plainSlots_iff]
    apply plainSlots_setKeys
    · exact plainSlots_iff.mp (plainSlots_map (fun slot member => (shape slot member).2.2) plain)
    · exact fun _ => nofun

private theorem result_unfolds (env : ParserEnv) (depth : Nat) (data : PlainAnything) :
    Restores tables env depth data (anyOf (tables.expanded
      (AnyText.ofAny false (anyOf (tables.compressed data))).tree)) :=
  tables.doExpand_unfolds env depth
    (imports_printAny AnyText.layout_simple (Or.inr fun _ => ⟨rfl, rfl⟩) env
      depth (compressed_plain sound data))

private theorem nothing_lost (data : PlainAnything)
    (same : anyOf (tables.expanded
      (AnyText.ofAny false (anyOf (tables.compressed data))).tree) = data.val) :
    tables.kept data = data.val.slots ∧ Anything.LongsApartSlots
        ((tables.kept data).map tables.shortSlot) ∧
      ((tables.kept data).map tables.shortSlot).map tables.expandedSlot = data.val.slots := by
  obtain ⟨-, -, keptFacts⟩ := kept_facts tables data
  have shape := fun slot member =>
    shortSlot_shape sound (keptFacts slot member).1 (keptFacts slot member).2
  have slots := congrArg Anything.slots same
  rw [slots_anyOf] at slots
  have compressed : tables.compressed data = Slots.setKeys []
      ((tables.kept data).map tables.shortSlot) := by
    unfold TableCompressor.compressed
    rw [filterMap_compressSlot]
    rfl
  unfold TableCompressor.expanded at slots
  -- the slots are counted through all steps
  have none : Anything.nodesSlots [] = 0 := rfl
  have filtered : Anything.nodesSlots (tables.kept data) ≤ _ ∧ _ :=
    nodes_filter tables.keeps data.val.slots
  have renamed := nodes_map (tables.kept data) (fun slot member => (shape slot member).2.2)
  have assigned := nodes_setKeys ((tables.kept data).map tables.shortSlot)
    (nulFree_of_mem_map fun slot member => (shape slot member).1) []
  rw [← compressed] at assigned
  have read := AnyText.nodes_tree_ofAny (anyOf (tables.compressed data))
  rw [nodes_anyOf, ← nodes_imported] at read
  have restored := nodes_setKeys ((AnyText.ofAny false
      (anyOf (tables.compressed data))).tree.slots.map tables.expandedSlot)
    (nulFree_of_mem_map fun slot _ => (expandedSlot_shape tables slot).1) []
  rw [slots] at restored
  have full := nodes_map (AnyText.ofAny false (anyOf (tables.compressed data))).tree.slots
    (fun slot _ => (expandedSlot_shape tables slot).2)
  have allShort : tables.compressed data =
      (tables.kept data).map tables.shortSlot := assigned.2 (by omega)
  have apart := read.2 (by omega)
  rw [allShort, anyOf_longsApart] at apart
  refine ⟨filtered.2 (by unfold kept at *; omega), apart, ?_⟩
  have tree : (AnyText.ofAny false (anyOf (tables.compressed data))).tree =
      anyOf (tables.compressed data) :=
    AnyText.tree_ofAny _ (compressed_plain sound data) (Or.inr (by
      rw [allShort, anyOf_longsApart]
      exact apart))
  have all := restored.2 (by omega)
  rw [tree, slots_anyOf, allShort] at all
  exact all.symm

theorem restores_iff (env : ParserEnv) (depth : Nat) (data : PlainAnything) :
    Restores tables env depth data data ↔ data.val = anyOf data.val.slots ∧
        (∀ slot ∈ data.val.slots, tables.keeps slot = true ∧ tables.ToldApart slot) ∧
        data.val.LongsApart := by
  obtain ⟨-, -, keptFacts⟩ := kept_facts tables data
  constructor
  · intro restored
    have same := Unfolds.unique (result_unfolds sound env depth data).2 restored.2
    have slots := congrArg Anything.slots same
    rw [slots_anyOf] at slots
    have shape : data.val = anyOf data.val.slots := by
      rw [← slots]
      exact same.symm
    obtain ⟨all, apart, back⟩ := nothing_lost sound data same
    rw [all] at back apart keptFacts
    rw [map_map] at back
    have each : ∀ slot ∈ data.val.slots, tables.expandedSlot (tables.shortSlot slot) = slot :=
      map_eq_map_iff.mp (back.trans (map_id _).symm)
    refine ⟨shape, fun slot member => ⟨(keptFacts slot member).2, ?_⟩, ?_⟩
    · exact (expandedSlot_shortSlot_iff sound (keptFacts slot member).1
        (keptFacts slot member).2).mp (each slot member)
    · rw [shape, anyOf_longsApart]
      have originals := Anything.longsApart_map tables.expandedSlot
        (fun short member => ⟨?_, (expandedSlot_shape tables short).2⟩) apart
      · rwa [map_map, back] at originals
      · rcases mem_map.mp member with ⟨slot, inside, rfl⟩
        rw [each slot inside]
        exact (shortSlot_shape sound (keptFacts slot inside).1 (keptFacts slot inside).2).2.1.mpr
  · rintro ⟨shape, all, apart⟩
    have kept : tables.kept data = data.val.slots :=
      filter_eq_self.mpr fun slot member => (all slot member).1
    have restored := restores_kept sound env depth data
      (fun slot member => (all slot member).2) (by
        rw [kept]
        rw [shape] at apart
        exact anyOf_longsApart.mp apart)
    rwa [kept, ← shape] at restored

end

/-- `{ /Key2UriMap { Page } /Val2UriMap { Start } /ValMapTags { Page } }` -/
def pageConfig (path : Bytes) : Option Anything :=
  if path = lit "SecurityModule.TableCompressor" then
    some (.array
      [(lit "Key2UriMap", .array [([], .charPtr (lit "Page"))]),
        (lit "Val2UriMap", .array [([], .charPtr (lit "Start"))]),
        (lit "ValMapTags", .array [([], .charPtr (lit "Page"))])])
  else none

/-- `{ /Page "Start" /a2 5 }` -/
def startPage : PlainAnything :=
  ⟨.array [(lit "Page", .charPtr (lit "Start")), (lit "a2", .long 5)],
    ⟨⟨by decide, by decide⟩, trivial, trivial, trivial⟩⟩

theorem doExpand_doCompress_startPage :
    Restores (init pageConfig).2 ⟨fun _ => none, fun _ => none⟩ 0 startPage startPage := by
  have all : (init pageConfig).2.kept startPage =
      [(lit "Page", .charPtr (lit "Start")), (lit "a2", .long 5)] :=
    filter_eq_self.mpr (by
      intro slot member
      rcases mem_pair.mp member with rfl | rfl <;> decide +kernel)
  have apart : ∀ slot ∈ startPage.val.slots, (init pageConfig).2.ToldApart slot := by
    intro slot member
    rcases mem_pair.mp member with rfl | rfl
    · exact ⟨by decide +kernel, fun _ _ => rfl, by decide +kernel⟩
    · exact ⟨by decide +kernel,
        fun tagged => absurd tagged.1 (by decide +kernel), by decide +kernel⟩
  have restored := doExpand_doCompress pageConfig
    ⟨fun _ => none, fun _ => none⟩ 0 startPage apart (by
      rw [all]
      exact ⟨trivial, id, trivial, id, trivial⟩)
  rwa [all] at restored

/-- `{ /Page "" }` -/
def emptyPage : PlainAnything :=
  ⟨.array [(lit "Page", .charPtr [])], ⟨⟨by decide, by decide⟩, trivial, trivial⟩⟩

/-- A listed slot without a text is lost. -/
theorem not_doExpand_doCompress_emptyPage :
    ¬ ∀ (config : Bytes → Option Anything) (env : ParserEnv) (depth : Nat)
      (data : PlainAnything),
      Restores (init config).2 env depth data data := by
  intro always
  rcases always pageConfig ⟨fun _ => none, fun _ => none⟩ 0 emptyPage with ⟨-, back⟩
  have lost : ((init pageConfig).2.doExpand
      ⟨fun _ => none, fun _ => none⟩ 0
      ((init pageConfig).2.doCompress emptyPage)).any = none := by
    decide +kernel
  rw [lost] at back
  rcases back with ⟨_, found, -⟩
  cases found

end TableCompressor

end Coast
