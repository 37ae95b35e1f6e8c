import Coast.Base.AnythingReader

/-!
# Printing and importing trees

What `PrintOn` writes is read back by `Import`: always in the pretty form, in
the compact form exactly when no number is printed directly behind another.
-/

namespace Coast

open IStream AnythingToken Heap

namespace AnyText

/-- A slot before others.  Without separation its number runs into the number
of the next slot, if that has no key. -/
def consSlot (separated : Bool) (key : Bytes) :
    AnyText → List (Bytes × AnyText) → List (Bytes × AnyText)
  | number word, ([], number more) :: slots =>
    if separated then (key, number word) :: ([], number more) :: slots
    else (key, number (word ++ more)) :: slots
  | value, slots => (key, value) :: slots

mutual

/-- The words that the printer writes. -/
def ofAny (separated : Bool) : Anything → AnyText
  | .null => null
  | .long value => number (decimalText value.toInt)
  | .charPtr value => charPtr value
  | .voidBuf value => voidBuf value
  | .array slots => array (ofSlots separated slots)
  | .double _ => null
  | .object _ => null

def ofSlots (separated : Bool) : List (Bytes × Anything) → List (Bytes × AnyText)
  | [] => []
  | (key, value) :: slots =>
    consSlot separated key (ofAny separated value) (ofSlots separated slots)

end

theorem glues_number {word other : Bytes}
    {slots : List (Bytes × AnyText)} (glues : Glues (number word) slots) :
    Glues (number other) slots := by
  match slots, glues with
  | ([], number _) :: _, _ => trivial

theorem consSlot_cases (separated : Bool) (key : Bytes) (value : AnyText)
    (slots : List (Bytes × AnyText)) :
    (consSlot separated key value slots = (key, value) :: slots ∧
        (separated = true ∨ ¬ Glues value slots)) ∨
      ∃ word more rest, separated = false ∧ value = number word ∧
        slots = ([], number more) :: rest ∧
        consSlot separated key value slots = (key, number (word ++ more)) :: rest := by
  by_cases glues : Glues value slots
  · cases value with
    | number word =>
      match slots, glues with
      | ([], number more) :: rest, _ =>
        cases separated with
        | true => exact Or.inl ⟨rfl, Or.inl rfl⟩
        | false => exact Or.inr ⟨word, more, rest, rfl, rfl, rfl, rfl⟩
    | _ => exact absurd glues (by simp [Glues])
  · refine Or.inl ⟨?_, Or.inr glues⟩
    unfold consSlot
    split
    · exact absurd trivial glues
    · rfl

theorem consSlot_keys (separated : Bool) (key : Bytes) (value : AnyText)
    (slots : List (Bytes × AnyText)) :
    Slots.keys (consSlot separated key value slots) =
      (if key = [] then [] else [key]) ++ Slots.keys slots := by
  rcases consSlot_cases separated key value slots with
    ⟨same, -⟩ | ⟨word, more, rest, -, -, rfl, same⟩
  · rw [same, Slots.keys_cons]
  · rw [same, Slots.keys_cons, Slots.keys_cons]
    rfl

theorem ofSlots_keys (separated : Bool) :
    ∀ slots : List (Bytes × Anything), Slots.keys (ofSlots separated slots) = Slots.keys slots
  | [] => rfl
  | (key, value) :: slots => by
      rw [ofSlots, consSlot_keys, ofSlots_keys separated slots, Slots.keys_cons]

mutual

theorem ofAny_readable (separated : Bool) :
    ∀ any : Anything, any.Plain → (ofAny separated any).Readable separated
  | .null, _ => trivial
  | .long value, _ => numberWord_decimalText value.toInt
  | .charPtr _, _ => trivial
  | .voidBuf _, bounded => bounded
  | .array slots, ⟨keysOk, plain⟩ => by
      refine ⟨⟨?_, ?_⟩, ofSlots_readable separated slots plain⟩
      · rw [ofSlots_keys]
        exact keysOk.distinct
      · rw [ofSlots_keys]
        exact keysOk.nulFree

theorem ofSlots_readable (separated : Bool) :
    ∀ slots : List (Bytes × Anything), Anything.PlainSlots slots →
      ReadableSlots separated (ofSlots separated slots)
  | [], _ => trivial
  | (key, value) :: slots, ⟨plain, others⟩ => by
      have first := ofAny_readable separated value plain
      have rest := ofSlots_readable separated slots others
      rw [ofSlots]
      rcases consSlot_cases separated key (ofAny separated value) (ofSlots separated slots) with
        ⟨same, apart⟩ | ⟨word, more, tail, glued, number, follow, same⟩
      · rw [same]
        exact ⟨first, apart, rest⟩
      · rw [same]
        rw [number] at first
        rw [follow] at rest
        obtain ⟨second, apart, tail⟩ := rest
        refine ⟨NumberWord.append first second, ?_, tail⟩
        exact apart.imp_right fun apart glues => apart (glues_number glues)

end

theorem refHere_ofAny (separated : Bool) (level : List PathStep)
    (slot : PathStep) (any : Anything) :
    (ofAny separated any).refHere level slot = [] := by
  cases any <;> rfl

mutual

theorem refs_ofAny (separated : Bool) :
    ∀ (any : Anything) (level : List PathStep), (ofAny separated any).refs level = []
  | .null, _ => rfl
  | .long _, _ => rfl
  | .charPtr _, _ => rfl
  | .double _, _ => rfl
  | .voidBuf _, _ => rfl
  | .object _, _ => rfl
  | .array slots, level => refs_ofSlots separated slots level 0

theorem refs_ofSlots (separated : Bool) :
    ∀ (slots : List (Bytes × Anything)) (level : List PathStep) (i : Nat),
      refsSlots level i (ofSlots separated slots) = []
  | [], _, _ => rfl
  | (key, value) :: slots, level, i => by
      have first := refHere_ofAny separated level (slotStep key i) value
      have inside := refs_ofAny separated value (level ++ [slotStep key i])
      have rest := fun i => refs_ofSlots separated slots level i
      rw [ofSlots]
      rcases consSlot_cases separated key (ofAny separated value) (ofSlots separated slots) with
        ⟨same, -⟩ | ⟨word, more, tail, -, number, follow, same⟩
      · rw [same, refsSlots, first, inside, rest]
        rfl
      · have tailRefs := rest i
        rw [follow] at tailRefs
        rw [same]
        exact tailRefs

end

/-! ## The text is what is printed -/

/-- A printer that writes nothing between slots unless it separates them. -/
def Tight (p : AnyPrinter) (separated : Bool) : Prop :=
  separated = true ∨ ∀ level, p.beforeElement level = [] ∧ p.afterElement level = []

mutual

theorem text_ofAny {p : AnyPrinter} {separated : Bool} (tight : Tight p separated) :
    ∀ (any : Anything) (level : Nat), any.Plain →
      (ofAny separated any).text p level = printAny p level any
  | .null, _, _ => rfl
  | .long _, _, _ => rfl
  | .charPtr _, _, _ => rfl
  | .voidBuf _, _, _ => rfl
  | .array slots, level, ⟨_, plain⟩ => by
      rw [ofAny, text, printAny, text_ofSlots tight slots level plain]

theorem text_ofSlots {p : AnyPrinter} {separated : Bool} (tight : Tight p separated) :
    ∀ (slots : List (Bytes × Anything)) (level : Nat), Anything.PlainSlots slots →
        textSlots p level (ofSlots separated slots) = printSlots p level slots
  | [], _, _ => rfl
  | (key, value) :: slots, level, ⟨plain, others⟩ => by
      have first := text_ofAny tight value (level + 1) plain
      have rest := text_ofSlots tight slots level others
      rw [ofSlots, printSlots, ← first, ← rest]
      rcases consSlot_cases separated key (ofAny separated value) (ofSlots separated slots) with
        ⟨same, -⟩ | ⟨word, more, tail, glued, number, follow, same⟩
      · rw [same, textSlots]
      · -- nothing is written between the two numbers
        have empty := tight.resolve_left (by simp [glued]) level
        rw [same, number, follow]
        simp [textSlots, text, empty, printSlotName]

end

end AnyText

namespace Anything

def LongsMeet : Anything → List (Bytes × Anything) → Prop
  | long _, ([], long _) :: _ => True
  | _, _ => False

mutual

/-- In no array a Long slot is followed by a Long slot without a key. -/
def LongsApart : Anything → Prop
  | array slots => LongsApartSlots slots
  | _ => True

def LongsApartSlots : List (Bytes × Anything) → Prop
  | [] => True
  | (_, value) :: slots =>
    LongsApart value ∧ ¬ LongsMeet value slots ∧ LongsApartSlots slots

end

theorem not_longsMeet_nil (value : Anything) : ¬ LongsMeet value [] := by
  cases value <;> exact id

theorem longsMeet_cons_iff {value next : Anything} {key : Bytes} {slots : Slots Anything} :
    LongsMeet value ((key, next) :: slots) ↔
      (∃ n, value = .long n) ∧ key = [] ∧ ∃ n, next = .long n := by
  constructor
  · intro meet
    match value, key, next, meet with
    | .long n, [], .long m, _ => exact ⟨⟨n, rfl⟩, rfl, m, rfl⟩
  · rintro ⟨⟨n, rfl⟩, rfl, m, rfl⟩
    trivial

theorem longsApart_map (change : Bytes × Anything → Bytes × Anything) {slots : Slots Anything}
    (shape : ∀ slot ∈ slots, ((change slot).1 = [] → slot.1 = []) ∧
      ((change slot).2 = slot.2 ∨ ∃ text, (change slot).2 = .charPtr text))
    (apart : LongsApartSlots slots) :
    LongsApartSlots (slots.map change) := by
  induction slots with
  | nil => trivial
  | cons slot slots ih =>
    have rest := ih (List.forall_mem_cons.mp shape).2 apart.2.2
    refine ⟨?_, ?_, rest⟩
    · rcases (shape slot (by simp)).2 with same | ⟨text, same⟩
      · rw [same]
        exact apart.1
      · rw [same]
        trivial
    · cases slots with
      | nil => exact not_longsMeet_nil _
      | cons next slots =>
        intro meet
        rw [List.map_cons, longsMeet_cons_iff] at meet
        apply apart.2.1
        rcases meet with ⟨⟨n, number⟩, unnamed, m, follow⟩
        have nextShape := shape next (by simp)
        rw [longsMeet_cons_iff]
        refine ⟨⟨n, ?_⟩, nextShape.1 unnamed, m, ?_⟩
        · rcases (shape slot (by simp)).2 with same | ⟨text, same⟩
          · exact same.symm.trans number
          · cases same.symm.trans number
        · rcases nextShape.2 with same | ⟨text, same⟩
          · exact same.symm.trans follow
          · cases same.symm.trans follow

mutual

def nodes : Anything → Nat
  | array slots => nodesSlots slots
  | _ => 0

def nodesSlots : List (Bytes × Anything) → Nat
  | [] => 0
  | (_, value) :: slots => nodes value + 1 + nodesSlots slots

end

end Anything

namespace AnyText

theorem decimalText_zero {value : Int64}
    (leading : (decimalText value.toInt).head? = some (ch '0')) :
    value = 0 := by
  unfold decimalText at leading
  split at leading
  · exact absurd (Option.some.inj leading) (by decide)
  · cases digits : digitsText value.toInt.natAbs with
    | nil => exact absurd digits (digitsText_ne_nil _)
    | cons c text =>
      rw [digits, List.head?_cons] at leading
      cases Option.some.inj leading
      have vanishes := digitsText_zero digits
      apply Int64.toInt_inj.mp
      rw [Int64.toInt_zero]
      omega

theorem numberTree_decimalText (value : Int64) :
    numberTree (decimalText value.toInt) = .long value := by
  have signs : ch '-' ∉ (decimalText value.toInt).tail := by
    obtain ⟨c, text, same, -, digits⟩ := decimalText_eq_cons value.toInt
    rw [same]
    intro minus
    have digit := digits _ minus
    revert digit
    decide
  by_cases leading : (decimalText value.toInt).head? = some (ch '0')
  · rw [decimalText_zero leading]
    rfl
  · rw [numberTree, numberToken, if_neg signs,
      if_neg (fun octal => leading octal.1), strtol_decimalText]
    rfl

theorem longsMeet_of_ofAny {separated : Bool} {value : Anything} {slots : List (Bytes × Anything)}
    {word more : Bytes} {rest : List (Bytes × AnyText)}
    (number : ofAny separated value = .number word)
    (follow : ofSlots separated slots = ([], .number more) :: rest) :
    Anything.LongsMeet value slots := by
  cases value with
  | long n =>
    cases slots with
    | nil => cases follow
    | cons slot slots =>
      obtain ⟨key, next⟩ := slot
      rw [ofSlots] at follow
      have unnamed : key = [] ∧ ∃ word, ofAny separated next = .number word := by
        rcases consSlot_cases separated key (ofAny separated next)
            (ofSlots separated slots) with
          ⟨same, -⟩ | ⟨word, _, _, -, numeric, -, same⟩
        · obtain ⟨first, -⟩ := List.cons.inj (same.symm.trans follow)
          obtain ⟨keySame, numeric⟩ := Prod.mk.inj first
          exact ⟨keySame, more, numeric⟩
        · obtain ⟨first, -⟩ := List.cons.inj (same.symm.trans follow)
          exact ⟨(Prod.mk.inj first).1, word, numeric⟩
      obtain ⟨rfl, word, numeric⟩ := unnamed
      cases next with
      | long _ => trivial
      | _ => cases numeric
  | _ => cases number

mutual

theorem tree_ofAny {separated : Bool} :
    ∀ any : Anything, any.Plain →
      (separated = true ∨ any.LongsApart) → (ofAny separated any).tree = any
  | .null, _, _ => rfl
  | .long value, _, _ => numberTree_decimalText value
  | .charPtr _, _, _ => rfl
  | .voidBuf _, _, _ => rfl
  | .array slots, ⟨_, plain⟩, apart => by
      rw [ofAny, tree, treeSlots_ofSlots slots plain apart]

theorem treeSlots_ofSlots {separated : Bool} :
    ∀ slots : List (Bytes × Anything), Anything.PlainSlots slots →
      (separated = true ∨ Anything.LongsApartSlots slots) →
      treeSlots (ofSlots separated slots) = slots
  | [], _, _ => rfl
  | (key, value) :: slots, ⟨plain, others⟩, apart => by
      have first := tree_ofAny value plain (apart.imp_right fun all => all.1)
      have rest := treeSlots_ofSlots slots others (apart.imp_right fun all => all.2.2)
      rw [ofSlots]
      rcases consSlot_cases separated key (ofAny separated value) (ofSlots separated slots) with
        ⟨same, -⟩ | ⟨word, more, tail, glued, number, follow, -⟩
      · rw [same, treeSlots, first, rest]
      · have all := apart.resolve_left (by simp [glued])
        exact absurd (longsMeet_of_ofAny number follow) all.2.1

end

private theorem nodes_numberTree (word : Bytes) : (numberTree word).nodes = 0 := by
  have value : ∀ number, (numberValue number).nodes = 0 := by
    intro number
    unfold numberValue
    split <;> rfl
  unfold numberTree
  split
  · rfl
  · exact value _
  · exact value _

mutual

theorem nodes_tree_ofAny :
    ∀ any : Anything, (ofAny false any).tree.nodes ≤ any.nodes ∧
      ((ofAny false any).tree.nodes = any.nodes → any.LongsApart)
  | .null => ⟨Nat.le_refl 0, fun _ => trivial⟩
  | .long value => by
      rw [ofAny, tree, nodes_numberTree]
      exact ⟨Nat.zero_le _, fun _ => trivial⟩
  | .charPtr _ => ⟨Nat.le_refl 0, fun _ => trivial⟩
  | .double _ => ⟨Nat.le_refl 0, fun _ => trivial⟩
  | .voidBuf _ => ⟨Nat.le_refl 0, fun _ => trivial⟩
  | .object _ => ⟨Nat.le_refl 0, fun _ => trivial⟩
  | .array slots => nodes_treeSlots_ofSlots slots

theorem nodes_treeSlots_ofSlots :
    ∀ slots : List (Bytes × Anything), Anything.nodesSlots (treeSlots (ofSlots false slots)) ≤
          Anything.nodesSlots slots ∧
        (Anything.nodesSlots (treeSlots (ofSlots false slots)) =
          Anything.nodesSlots slots → Anything.LongsApartSlots slots)
  | [] => ⟨Nat.le_refl 0, fun _ => trivial⟩
  | (key, value) :: slots => by
      have first := nodes_tree_ofAny value
      have rest := nodes_treeSlots_ofSlots slots
      rw [ofSlots, Anything.nodesSlots]
      rcases consSlot_cases false key (ofAny false value) (ofSlots false slots) with
        ⟨kept, apart⟩ | ⟨word, more, tail, -, -, follow, glued⟩
      · rw [kept, treeSlots, Anything.nodesSlots]
        refine ⟨by omega, fun same => ?_⟩
        refine ⟨first.2 (by omega), ?_, rest.2 (by omega)⟩
        intro meet
        apply apart.resolve_left (by decide)
        match value, slots, meet with
        | .long n, ([], .long m) :: slots, _ =>
          rw [ofSlots]
          rcases consSlot_cases false [] (ofAny false (.long m)) (ofSlots false slots) with
            ⟨shape, -⟩ | ⟨_, _, _, -, -, -, shape⟩ <;>
            · rw [shape]
              trivial
      · -- one slot is missing
        have tailNodes := rest.1
        rw [follow, treeSlots, tree, Anything.nodesSlots, nodes_numberTree] at tailNodes
        rw [glued, treeSlots, tree, Anything.nodesSlots, nodes_numberTree]
        exact ⟨by omega, fun same => by omega⟩

end

end AnyText

/-- `Import` succeeds and the tree is seen behind the handle. -/
def Imports (env : ParserEnv) (depth : Nat) (text : Bytes) (any : Anything) : Prop :=
  (importText env depth false text).ok = true ∧
    Heap.Unfolds (importText env depth false text).heap any (importText env depth false text).any

theorem importText_decimalText (env : ParserEnv) (depth : Nat) (value : Int64) :
    importText env depth false (decimalText value.toInt) = ⟨true, some 0, [.long value]⟩ := by
  by_cases leading : (decimalText value.toInt).head? = some (ch '0')
  · rw [AnyText.decimalText_zero leading]
    rfl
  · obtain ⟨c, text, same, -, digits⟩ := decimalText_eq_cons value.toInt
    obtain ⟨c', text', same', start⟩ := (numberWord_decimalText value.toInt).start
    obtain ⟨rfl, rfl⟩ := List.cons.inj (same.symm.trans same')
    have notZero : c ≠ ch '0' := by
      rintro rfl
      exact leading (by rw [same]; rfl)
    obtain ⟨s, read⟩ := read_decimal_end start notZero digits
    have number := strtol_decimalText value
    rw [same] at number
    have token : (⟨at_ [] (c :: text), false, [], []⟩ :
        ParseState).token = (⟨.eDecimalNumber, c :: text⟩, ⟨s, false, [], []⟩) := by
      simp only [ParseState.token, read]
    rw [same]
    simp only [importText, importWith, doParse, ofText, token, parseValue,
      reduceCtorEq, if_false, makeSimpleAny, number]
    rfl

theorem imports_printAny {p : AnyPrinter} {separated : Bool}
    (layout : AnyText.Layout p separated) (tight : AnyText.Tight p separated)
    (env : ParserEnv) (depth : Nat) {any : Anything} (plain : any.Plain) :
    Imports env depth (printAny p 0 any) (AnyText.ofAny separated any).tree := by
  by_cases number : ∃ value, any = .long value
  · obtain ⟨value, rfl⟩ := number
    unfold Imports
    rw [printAny, importText_decimalText]
    refine ⟨rfl, ?_⟩
    rw [AnyText.ofAny, AnyText.tree, AnyText.numberTree_decimalText]
    rfl
  · have notNumber : ∀ word, AnyText.ofAny separated any ≠ .number word := by
      intro word same
      cases any with
      | long value => exact number ⟨value, rfl⟩
      | _ => cases same
    have notRef : ∀ raw query, AnyText.ofAny separated any ≠ .ref raw query := by
      intro raw query same
      cases any <;> cases same
    have result := importText_text layout
      (AnyText.ofAny_readable separated any plain) notNumber notRef env depth
    rw [AnyText.text_ofAny tight any 0 plain, AnyText.refs_ofAny] at result
    unfold Imports
    rw [result]
    exact ⟨rfl, Heap.load_unfolds _ _⟩

/-- The pretty form of every plain tree is read back. -/
theorem import_printOn_pretty (env : ParserEnv) (depth : Nat) (any : PlainAnything) :
    Imports env depth (printOn any true) any := by
  have result := imports_printAny AnyText.layout_pretty (Or.inl rfl) env depth any.property
  rwa [AnyText.tree_ofAny any.val any.property (Or.inl rfl)] at result

theorem importText_printOn_compact_ok (env : ParserEnv) (depth : Nat) (any : PlainAnything) :
    (importText env depth false (printOn any false)).ok = true :=
  (imports_printAny AnyText.layout_simple (Or.inr fun _ => ⟨rfl, rfl⟩) env depth any.property).1

theorem unfolds_printOn_compact_iff (env : ParserEnv) (depth : Nat) (any : PlainAnything) :
    Heap.Unfolds (importText env depth false (printOn any false)).heap any
        (importText env depth false (printOn any false)).any ↔
      any.val.LongsApart := by
  have result := imports_printAny AnyText.layout_simple
    (Or.inr fun _ => ⟨rfl, rfl⟩) env depth any.property
  constructor
  · intro seen
    have same := Heap.Unfolds.unique result.2 seen
    exact (AnyText.nodes_tree_ofAny any.val).2 (congrArg Anything.nodes same)
  · intro apart
    rw [AnyText.tree_ofAny any.val any.property (Or.inr apart)] at result
    exact result.2

/-- The compact form of a plain tree is read back exactly when no Long slot
is followed by a Long slot without a key. -/
theorem import_printOn_compact_iff (env : ParserEnv) (depth : Nat) (any : PlainAnything) :
    Imports env depth (printOn any false) any ↔ any.val.LongsApart := by
  rw [← unfolds_printOn_compact_iff env depth any]
  exact ⟨fun imported => imported.2,
    fun seen => ⟨importText_printOn_compact_ok env depth any, seen⟩⟩

def twoLongs : PlainAnything :=
  ⟨.array [([], .long 1), ([], .long 2)], ⟨⟨by decide, by decide⟩, trivial, trivial, trivial⟩⟩

/-- The compact form of two numbers is read as one number. -/
theorem not_import_printOn_compact_twoLongs :
    ¬ ∀ (env : ParserEnv) (depth : Nat) (any : PlainAnything),
      Imports env depth (printOn any false) any := by
  intro always
  have read : importText ⟨fun _ => none, fun _ => none⟩ 0 false
      (printOn twoLongs false) = ⟨true, some 1, [.long 12, .array [([], some 0)]]⟩ := by
    decide +kernel
  have twelve : Imports ⟨fun _ => none, fun _ => none⟩ 0
      (printOn twoLongs false) (.array [([], .long 12)]) := by
    unfold Imports
    rw [read]
    exact ⟨rfl, _, rfl, some 0, [], rfl, rfl, rfl⟩
  have one := Heap.Unfolds.unique twelve.2 (always ⟨fun _ => none, fun _ => none⟩ 0 twoLongs).2
  cases one

end Coast
