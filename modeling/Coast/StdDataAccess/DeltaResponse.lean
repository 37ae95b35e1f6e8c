import Coast.StdDataAccess.MSAjaxFixFieldLengthResultMapper

/-!
# Taking a delta response apart

An entry starts with the number of characters of its value.  What the loop over
the entries reads is in the text as long as no entry declares more octets than
are left.
-/

namespace Coast

open List

namespace Utf8

def Malformed (text : Bytes) : Prop :=
  ∃ n it, advance n text = .ok it ∧ next it = .error .invalidUtf8

variable {text : Bytes} {n : Nat}

theorem advance_error {e : Utf8Exception}
    (result : advance n text = .error e) :
    ∃ k it, advance k text = .ok it ∧ next it = .error e := by
  induction n generalizing text with
  | zero => cases result
  | succ n ih =>
    rw [advance] at result
    cases first : next text with
    | error e' =>
      rw [first] at result
      cases result
      exact ⟨0, text, rfl, first⟩
    | ok decoded =>
      rw [first] at result
      rcases ih result with ⟨k, it, here, fails⟩
      refine ⟨k + 1, it, ?_, fails⟩
      rw [advance, first]
      exact here

theorem advance_fails {it : Bytes} {k : Nat} {e : Utf8Exception}
    (here : advance k text = .ok it) (fails : next it = .error e)
    (further : k < n) : advance n text = .error e := by
  induction k generalizing text n with
  | zero =>
    cases here
    cases n with
    | zero => omega
    | succ n =>
      rw [advance, fails]
      rfl
  | succ k ih =>
    rcases except_bind_ok here with ⟨decoded, first, others⟩
    cases n with
    | zero => omega
    | succ n =>
      rw [advance, first]
      exact ih others (Nat.lt_of_succ_lt_succ further)

theorem advance_malformed (further : text.length < n) :
    advance n text = .error .invalidUtf8 ↔ Malformed text := by
  constructor
  · intro result
    rcases advance_error result with ⟨k, it, here, fails⟩
    exact ⟨k, it, here, fails⟩
  · intro malformed
    rcases malformed with ⟨k, it, here, fails⟩
    rcases advance_left here with ⟨taken, least, inside, -⟩
    exact advance_fails here fails (by omega)

end Utf8

namespace MSAjaxFixFieldLengthResultMapper

open URLUtils

/-- The text behind so many fields; a field without a delimiter stays. -/
def behindFields (delim : Byte) : Nat → Bytes → Bytes
  | 0, text => text
  | n + 1, text =>
    behindFields delim n (if delim ∈ text then (text.dropWhile (· ≠ delim)).tail else text)

/-- The number in front of the first delimiter.  Without a field in front of
the value there is none. -/
def declaredLength (delim : Byte) (nFields : Nat) (text : Bytes) : Int64 :=
  if nFields ≤ 1 then -1
  else (asLong (text.takeWhile (· ≠ delim)) (-1)).1

variable {delim : Byte}

theorem takeWhile_delim {word : Bytes} (free : delim ∉ word) (rest : Bytes) :
    (word ++ delim :: rest).takeWhile (· ≠ delim) = word ∧
      (word ++ delim :: rest).dropWhile (· ≠ delim) = delim :: rest := by
  refine takeWhile_append_stop (decide_eq_false (not_not_intro rfl)) ?_ rest
  intro c member
  exact decide_eq_true (ne_of_mem_of_not_mem member free)

theorem getFields_word {word : Bytes} (free : delim ∉ word) (n : Nat) (rest : Bytes) :
    getFields delim (n + 1) (word ++ delim :: rest) =
      (word :: (getFields delim n rest).1, (getFields delim n rest).2) := by
  have position : delimPos (word ++ delim :: rest) delim = word.length := by
    rw [delimPos, strChr_append free]
    rfl
  have left : trimFront (word ++ delim :: rest) ((word.length : Int) + delimLen) = rest := by
    have next : (word.length : Int) + delimLen =
        ((word ++ [delim]).length : Int) := by simp [delimLen]
    rw [next, trimFront_nat, append_cons word delim rest]
    exact drop_left
  have field : subStringFrom (word ++ delim :: rest) 0 word.length = word := by
    have taken := subStringFrom_take (word ++ delim :: rest) word.length (by simp)
    rw [taken]
    exact take_left
  rw [getFields, position, left, field]

variable {text : Bytes}

theorem getFields_rest (free : delim ∉ text) (n : Nat) :
    getFields delim (n + 1) text =
      (text :: (getFields delim n text).1, (getFields delim n text).2) := by
  have position : delimPos text delim = -1 := by
    rw [delimPos, strChr_eq_none free]
    rfl
  have left : trimFront text (-1 + delimLen) = text := trimFront_nat text 0
  have field : subStringFrom text 0 (-1) = text := subStringFrom_rest text 0
  rw [getFields, position, left, field]

theorem getFields_spec (delim : Byte) (n : Nat) (text : Bytes) :
    (getFields delim n text).2 = behindFields delim n text ∧ behindFields delim n text <:+ text ∧
      (getFields delim n text).1.length = n ∧
      (∀ field ∈ (getFields delim n text).1, field <:+: text) ∧
      (0 < n → (getFields delim n text).1.headD [] = text.takeWhile (· ≠ delim)) := by
  induction n generalizing text with
  | zero =>
    exact ⟨rfl, suffix_refl _, rfl, fun _ member => (nomatch member),
      fun some_ => absurd some_ (Nat.lt_irrefl 0)⟩
  | succ n ih =>
    by_cases inside : delim ∈ text
    · rcases eq_append_cons_of_mem inside with ⟨word, rest, rfl, free⟩
      rcases takeWhile_delim free rest with ⟨taken, dropped⟩
      rcases ih rest with ⟨left, suffix, length, parts, -⟩
      have behind : rest <:+ word ++ delim :: rest :=
        ⟨word ++ [delim], by rw [append_assoc]; rfl⟩
      rw [getFields_word free, behindFields, if_pos inside, dropped, taken]
      refine ⟨left, suffix.trans behind, congrArg (· + 1) length, ?_, fun _ => rfl⟩
      rw [forall_mem_cons]
      exact ⟨(prefix_append _ _).isInfix, fun field member =>
        (parts field member).trans behind.isInfix⟩
    · rcases ih text with ⟨left, suffix, length, parts, -⟩
      have whole : text.takeWhile (· ≠ delim) = text := by
        rw [takeWhile_eq_self_iff]
        intro c member
        exact decide_eq_true (ne_of_mem_of_not_mem member inside)
      rw [getFields_rest inside, behindFields, if_neg inside, whole]
      refine ⟨left, suffix, congrArg (· + 1) length, ?_, fun _ => rfl⟩
      rw [forall_mem_cons]
      exact ⟨infix_refl _, parts⟩

/-- The declared number is not above the octets that are left behind the
fields, or the decoder stops at octets that are no UTF-8. -/
def Fits (delim : Byte) (nFields : Nat) (text : Bytes) : Prop :=
  (declaredLength delim nFields text).toInt ≤ (behindFields delim (nFields - 1) text).length ∨
    Utf8.Malformed (behindFields delim (nFields - 1) text)

/-- The entry does not depend on what is behind the text, and its slots are
parts of the text. -/
def ReadsInside (delim : Byte) (nFields : Nat) (text : Bytes) : Prop :=
  (∀ beyond other, getEntryFromString beyond text delim nFields =
      getEntryFromString other text delim nFields) ∧
    ∀ beyond anyEntry rest, getEntryFromString beyond text delim nFields =
      .ok (anyEntry, rest) → ∀ slot ∈ anyEntry, slot <:+: text

theorem memoryFrom_inside {length : Nat} (inside : length ≤ text.length) (beyond : Nat → Byte) :
    memoryFrom beyond text length = text.take length := by
  rw [memoryFrom, Nat.sub_eq_zero_of_le inside, range_zero, map_nil, append_nil]

theorem memoryFrom_differ {length : Nat} (above : text.length < length) :
    memoryFrom (fun _ => 0) text length ≠ memoryFrom (fun _ => 1) text length := by
  intro same
  have behind := append_cancel_left same
  have inside : 0 < length - text.length := by omega
  have first := congrArg List.head? behind
  rw [head?_map, head?_map, head?_range, if_neg (by omega)] at first
  exact absurd first (by decide)

variable {sText : Bytes} {length : Int64}

theorem getSubString_inside
    (inside : length.toInt ≤ sText.length ∨ Utf8.Malformed sText) (beyond : Nat → Byte) :
    getSubString beyond sText length = .error .invalidUtf8 ∨ ∃ count, count ≤ sText.length ∧
        getSubString beyond sText length = .ok (sText.take count) := by
  by_cases fits : length.toInt.toNat ≤ sText.length
  · cases result : Utf8.advance length.toInt.toNat sText with
    | ok it =>
      right
      refine ⟨sText.length - it.length, Nat.sub_le _ _, ?_⟩
      simp only [getSubString, result]
    | error e =>
      cases e with
      | invalidUtf8 =>
        left
        simp only [getSubString, result]
      | notEnoughRoom =>
        right
        refine ⟨_, fits, ?_⟩
        simp only [getSubString, result, memoryFrom_inside fits]
      | invalidCodePoint =>
        right
        refine ⟨_, fits, ?_⟩
        simp only [getSubString, result, memoryFrom_inside fits]
  · have malformed := inside.resolve_left (by omega)
    left
    simp only [getSubString, (Utf8.advance_malformed (Nat.lt_of_not_le fits)).mpr malformed]

theorem getSubString_same
    (inside : length.toInt ≤ sText.length ∨ Utf8.Malformed sText) (beyond other : Nat → Byte) :
    getSubString beyond sText length = getSubString other sText length := by
  by_cases fits : length.toInt.toNat ≤ sText.length
  · rw [getSubString, getSubString]
    simp only [memoryFrom_inside fits]
  · have malformed := inside.resolve_left (by omega)
    have fails := (Utf8.advance_malformed (Nat.lt_of_not_le fits)).mpr malformed
    simp only [getSubString, fails]

theorem getSubString_beyond (above : sText.length < length.toInt)
    (decodes : ¬Utf8.Malformed sText) (beyond : Nat → Byte) :
    getSubString beyond sText length = .ok (memoryFrom beyond sText length.toInt.toNat) := by
  have further : sText.length < length.toInt.toNat := by omega
  cases result : Utf8.advance length.toInt.toNat sText with
  | ok it =>
    rcases Utf8.advance_left result with ⟨taken, least, inside, -⟩
    omega
  | error e =>
    cases e with
    | invalidUtf8 =>
      exact absurd ((Utf8.advance_malformed further).mp result) decodes
    | notEnoughRoom => simp only [getSubString, result]
    | invalidCodePoint => simp only [getSubString, result]

def frontSlots (delim : Byte) (nFields : Nat) (text : Bytes) : List Bytes :=
  let fields := (getFields delim (nFields - 1) text).1
  if fields = [] then [[]] else fields

theorem frontSlots_length (delim : Byte) (nFields : Nat) (text : Bytes) :
    (asLong ((frontSlots delim nFields text).headD []) (-1)).1 =
      declaredLength delim nFields text := by
  rcases getFields_spec delim (nFields - 1) text with ⟨-, -, length, -, first⟩
  by_cases few : nFields ≤ 1
  · have none_ : (getFields delim (nFields - 1) text).1 = [] :=
      eq_nil_of_length_eq_zero (by omega)
    rw [declaredLength, if_pos few, frontSlots, none_]
    rfl
  · have some_ : (getFields delim (nFields - 1) text).1 ≠ [] := by
      rw [← length_pos_iff]
      omega
    rw [declaredLength, if_neg few, frontSlots, if_neg some_, first (by omega)]

variable {nFields : Nat}

theorem frontSlots_infix {slot : Bytes}
    (member : slot ∈ frontSlots delim nFields text) : slot <:+: text := by
  rcases getFields_spec delim (nFields - 1) text with ⟨-, -, -, parts, -⟩
  rw [frontSlots] at member
  split at member
  · rw [mem_singleton.mp member]
    exact nil_infix
  · exact parts slot member

theorem getEntryFromString_eq (beyond : Nat → Byte) (text : Bytes) (delim : Byte) (nFields : Nat) :
    getEntryFromString beyond text delim nFields =
      (getSubString beyond (behindFields delim (nFields - 1) text)
        (declaredLength delim nFields text)).map fun value =>
          (frontSlots delim nFields text ++ [value],
            trimFront (behindFields delim (nFields - 1) text) (value.length + delimLen)) := by
  rw [← frontSlots_length, ← (getFields_spec delim (nFields - 1) text).1, getEntryFromString]
  dsimp only [frontSlots]
  cases getSubString beyond (getFields delim (nFields - 1) text).2 _ <;> rfl

theorem readsInside_of_fits (fits : Fits delim nFields text) : ReadsInside delim nFields text := by
  constructor
  · intro beyond other
    rw [getEntryFromString_eq, getEntryFromString_eq, getSubString_same fits beyond other]
  · intro beyond anyEntry rest result slot member
    rw [getEntryFromString_eq] at result
    rcases getSubString_inside fits beyond with fails | ⟨count, -, taken⟩
    · rw [fails] at result
      cases result
    · rw [taken] at result
      cases result
      rcases mem_append.mp member with field | value
      · exact frontSlots_infix field
      · rw [mem_singleton.mp value]
        have suffix := (getFields_spec delim (nFields - 1) text).2.1
        exact ( take_prefix _ _).isInfix.trans suffix.isInfix

theorem fits_of_readsInside
    (inside : ReadsInside delim nFields text) : Fits delim nFields text := by
  by_contra outside
  rcases not_or.mp outside with ⟨above, decodes⟩
  have above := lt_of_not_ge above
  have same := inside.1 (fun _ => 0) (fun _ => 1)
  rw [getEntryFromString_eq, getEntryFromString_eq,
    getSubString_beyond above decodes, getSubString_beyond above decodes]
    at same
  have slots := congrArg Prod.fst (Except.ok.inj same)
  have values := singleton_inj.mp (append_cancel_left slots)
  exact absurd values (memoryFrom_differ (by omega))

theorem getEntryFromString_left {beyond : Nat → Byte} {rest : Bytes} {anyEntry : List Bytes}
    (result : getEntryFromString beyond text delim nFields =
      .ok (anyEntry, rest)) (some_ : text ≠ []) :
    rest.length < text.length := by
  have suffix := (getFields_spec delim (nFields - 1) text).2.1.length_le
  have positive := length_pos_iff.mpr some_
  rw [getEntryFromString_eq] at result
  cases value : getSubString beyond (behindFields delim (nFields - 1) text)
      (declaredLength delim nFields text) with
  | error e =>
    rw [value] at result
    cases result
  | ok value_ =>
    rw [value] at result
    cases result
    have next : (value_.length : Int) + delimLen = ((value_.length + 1 : Nat) : Int) := rfl
    rw [next, trimFront_nat, length_drop]
    omega

section

variable {σ : Type} (this : MSAjaxFixFieldLengthResultMapper σ) (beyond : Nat → Byte)

/-- The states in front of the turns of the loop. -/
inductive Reached (start : EntryLoop σ) : EntryLoop σ → Prop where
  | start : Reached start start
  | turn {loop after : EntryLoop σ} : Reached start loop → loop.sText ≠ [] →
      this.entryTurn beyond loop = .ok after → Reached start after

variable {loop : EntryLoop σ}

theorem entryTurn_left {after : EntryLoop σ} (result : this.entryTurn beyond loop = .ok after)
    (some_ : loop.sText ≠ []) : after.sText.length < loop.sText.length := by
  rcases Utf8.except_bind_ok result with ⟨⟨anyEntry, rest⟩, entry, others⟩
  have left := getEntryFromString_left entry some_
  dsimp only at others
  split at others
  · rcases Utf8.except_bind_ok others with ⟨⟨strOut, ctx⟩, -, last⟩
    cases last
    exact left
  · cases others
    exact left

theorem entryLoop_end (empty : loop.sText = [])
    (turns : Nat) : this.entryLoop beyond turns loop = some (.ok loop) := by
  cases turns <;> rw [entryLoop, if_pos empty]

theorem entryLoop_turn {after : EntryLoop σ} (some_ : loop.sText ≠ [])
    (turn : this.entryTurn beyond loop = .ok after) (turns : Nat) :
    this.entryLoop beyond (turns + 1) loop = this.entryLoop beyond turns after := by
  rw [entryLoop, if_neg some_, turn]

theorem entryLoop_returns (turns : Nat) (loop : EntryLoop σ) (enough : loop.sText.length ≤ turns) :
    ∃ result, this.entryLoop beyond turns loop = some result := by
  induction turns generalizing loop with
  | zero =>
    have empty := eq_nil_of_length_eq_zero (Nat.le_zero.mp enough)
    exact ⟨.ok loop, this.entryLoop_end beyond empty 0⟩
  | succ turns ih =>
    by_cases empty : loop.sText = []
    · exact ⟨.ok loop, this.entryLoop_end beyond empty _⟩
    · cases turn : this.entryTurn beyond loop with
      | error e =>
        exact ⟨.error e, by rw [entryLoop, if_neg empty, turn]⟩
      | ok after =>
        have left := this.entryTurn_left beyond turn empty
        rw [this.entryLoop_turn beyond empty turn]
        exact ih after (by omega)

/-- The loop over the entries comes to its end, and reads inside of the text
in all of its turns exactly if the text fits in front of all of them. -/
theorem entryLoop_readsInside_iff (start : EntryLoop σ) :
    ((∃ result, this.entryLoop beyond start.sText.length start = some result) ∧
        ∀ loop, this.Reached beyond start loop → ReadsInside this.delim this.nFields loop.sText) ↔
      ∀ loop, this.Reached beyond start loop → Fits this.delim this.nFields loop.sText := by
  constructor
  · intro safe loop reached
    exact fits_of_readsInside (safe.2 loop reached)
  · intro fit
    refine ⟨this.entryLoop_returns beyond _ start (Nat.le_refl _), ?_⟩
    intro loop reached
    exact readsInside_of_fits (fit loop reached)

end

def documented : MSAjaxFixFieldLengthResultMapper Unit where
  fieldList := [some (lit "0"), some (lit "*"), some (lit "*"), some (lit "+")]
  delim := ch '|'
  putValue := fun _ ctx => (none, ctx)
  putContentLength := fun _ ctx => ctx

/-- One hundred characters are declared, and three are left. -/
theorem not_entryLoop_readsInside :
    ¬∀ beyond loop, documented.Reached beyond ⟨lit "100|x|y|abc", [], ()⟩ loop →
        ReadsInside documented.delim documented.nFields loop.sText := by
  intro safe
  have first := fits_of_readsInside (safe (fun _ => 0) _ .start)
  rcases first with within | malformed
  · exact absurd within (by decide +kernel)
  · have further : (lit "abc").length < 4 := by decide +kernel
    have stops := (Utf8.advance_malformed further).mpr malformed
    exact absurd stops (by decide +kernel)

end MSAjaxFixFieldLengthResultMapper

end Coast
