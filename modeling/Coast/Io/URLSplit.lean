import Coast.Base.AnyAccess
import Coast.Base.ResolvePath
import Coast.Base.StringImpl
import Coast.Base.StringParts
import Coast.Io.HTMLEntities
import Coast.Library.Fuel
import Mathlib.Data.List.DropRight

/-!
# Splitting into keys and values

`Split` takes a text apart at a delimiter and puts the pairs of keys and values
into an Anything.
-/

namespace Coast

open List

namespace URLUtils

def strChrFrom (text : Bytes) (c : Byte) (start : Nat) : Option Nat :=
  (strChr (text.drop start) c).map (start + ·)

def contains (text pattern : Bytes) : Option Nat := StringRep.strstr (cstr pattern) (cstr text)

/-- How names are normalized. -/
inductive NormalizeTag where
  | eUpshift
  | eDownshift
  | eUntouched
  deriving DecidableEq, Repr

def normalize (str : Bytes) : NormalizeTag → Bytes
  | .eUpshift => (cstr str).map toupper ++ str.drop (cstr str).length
  | .eDownshift => (cstr str).map StringRep.tolower ++ str.drop (cstr str).length
  | .eUntouched => str

def trimENDL (line : Bytes) : Bytes :=
  let llen := line.length
  if line.getD (llen - 2) 0 = ch '\r' ∧ line.getD (llen - 1) 0 = ch '\n' then
    line.take (llen - 2)
  else if line.getD (llen - 1) 0 = ch '\r' then line.take (llen - 1)
  else line

def trimBlanks (str : Bytes) : Bytes := str.dropWhile (· = ch ' ')

def appendValueTo (any : Anything) (key value : Bytes) : Anything :=
  if key ≠ [] then
    if any.isDefined key then
      any.assign key ((any.atKey key).append (.charPtr (cstr value)))
    else any.assign key (.charPtr (cstr value))
  else if cstr value ≠ [] then any.append (.charPtr (cstr value))
  else any

def unquoted (p : Bytes) : Bytes :=
  if p.head? = some (ch '"') ∨ p.head? = some (ch '\'') then p.dropLast.tail
  else p

def pair (buf : Bytes) (delim : Byte) (any : Anything) (normKey : NormalizeTag) : Anything :=
  match strChr (cstr buf) delim with
  | some p =>
    appendValueTo any (normalize ((cstr buf).take p) normKey) (unquoted ((cstr buf).drop (p + 1)))
  | none =>
    if cstr buf ≠ [] then any.append (.charPtr (cstr buf)) else any

def split (buf : Bytes) (delim : Byte) (out : Anything) (delim2 : Byte)
    (norm : NormalizeTag) : Anything :=
  (stringTokens delim buf).foldl (fun out token => pair (trimBlanks token) delim2 out norm) out

mutual

def decodeAll : Anything → Anything
  | .charPtr value => .charPtr (urlDecode (cstr value) true)
  | .array slots => .array (decodeSlots slots)
  | any => any

def decodeSlots : List (Bytes × Anything) → List (Bytes × Anything)
  | [] => []
  | (key, value) :: slots => (key, decodeAll value) :: decodeSlots slots

end

theorem trimENDL_crlf (line : Bytes) : trimENDL (line ++ [ch '\r', ch '\n']) = line := by
  have total : (line ++ [ch '\r', ch '\n']).length = line.length + 2 := by
    rw [length_append]
    rfl
  have first : (line ++ [ch '\r', ch '\n']).getD line.length 0 = ch '\r' := by
    rw [getD_append_right _ _ _ _ (Nat.le_refl _), Nat.sub_self]
    rfl
  have second : (line ++ [ch '\r', ch '\n']).getD (line.length + 1) 0 = ch '\n' := by
    rw [getD_append_right _ _ _ _ (Nat.le_add_right _ 1), Nat.add_sub_cancel_left]
    rfl
  unfold trimENDL
  rw [total]
  dsimp only
  rw [Nat.add_sub_cancel, if_pos ⟨first, second⟩]
  exact take_left

theorem trimENDL_cr (line : Bytes) : trimENDL (line ++ [ch '\r']) = line := by
  have total : (line ++ [ch '\r']).length = line.length + 1 := by
    rw [length_append]
    rfl
  have last : (line ++ [ch '\r']).getD line.length 0 = ch '\r' := by
    rw [getD_append_right _ _ _ _ (Nat.le_refl _), Nat.sub_self]
    rfl
  have differ : ¬ ch '\r' = ch '\n' := by decide
  unfold trimENDL
  rw [total]
  dsimp only
  rw [Nat.add_sub_cancel, last, if_neg fun both => differ both.2, if_pos rfl]
  exact take_left

theorem strChr_append {c : Byte} {word : Bytes} (inside : c ∉ word)
    (rest : Bytes) : strChr (word ++ c :: rest) c = some word.length := by
  unfold strChr
  induction word with
  | nil => exact findIdx?_cons.trans (if_pos (decide_eq_true rfl))
  | cons d word ih =>
    have differs : d ≠ c := fun same =>
      inside (mem_cons.mpr (.inl same.symm))
    have later := ih fun member => inside (mem_cons_of_mem d member)
    rw [cons_append, findIdx?_cons, later, if_neg (by rw [decide_eq_true_eq]; exact differs)]
    rfl

theorem strChr_eq_none {c : Byte} {word : Bytes} (inside : c ∉ word) : strChr word c = none := by
  unfold strChr
  rw [findIdx?_eq_none_iff]
  intro d member
  rw [decide_eq_false_iff_not]
  intro same
  exact inside (same ▸ member)

theorem normalize_eUpshift {str : Bytes} (nulFree : NulFree str) :
    normalize str .eUpshift = str.map toupper := by
  unfold normalize
  rw [cstr_of_nulFree nulFree, drop_length, append_nil]

theorem unquoted_quoted (value : Bytes) : unquoted (ch '"' :: (value ++ [ch '"'])) = value := by
  unfold unquoted
  rw [if_pos (.inl rfl), ← cons_append, dropLast_concat]
  rfl

theorem appendValueTo_new {any : Anything} {key value : Bytes}
    (named : key ≠ []) (nulFree : NulFree value) (new : any.isDefined key = false) :
    appendValueTo any key value = any.assign key (.charPtr value) := by
  unfold appendValueTo
  rw [if_pos named, new, cstr_of_nulFree nulFree]
  rfl

theorem pair_quoted {any : Anything} {key value : Bytes} {delim : Byte} (named : key ≠ [])
    (inside : delim ∉ key) (keyFree : NulFree key) (notNul : delim ≠ 0) (valueFree : NulFree value)
    (new : any.isDefined (key.map toupper) = false) :
    pair (key ++ delim :: ch '"' :: (value ++ [ch '"'])) delim any
        .eUpshift =
      any.assign (key.map toupper) (.charPtr value) := by
  have nulFree : NulFree (key ++ delim :: ch '"' :: (value ++ [ch '"'])) := by
    intro member
    rcases mem_append.mp member with inKey | behind
    · exact keyFree inKey
    · rcases mem_cons.mp behind with isDelim | quoted
      · exact notNul isDelim.symm
      · rcases mem_cons.mp quoted with isQuote | inValue
        · exact absurd isQuote (by decide)
        · rcases mem_append.mp inValue with inValue | isQuote
          · exact valueFree inValue
          · exact absurd (mem_singleton.mp isQuote) (by decide)
  have namedUp : key.map toupper ≠ [] := by
    intro nothing
    exact named (map_eq_nil_iff.mp nothing)
  have behind : (key ++ delim :: ch '"' :: (value ++ [ch '"'])).drop
      (key.length + 1) = ch '"' :: (value ++ [ch '"']) := by
    rw [← drop_drop, drop_left]
    rfl
  unfold pair
  rw [cstr_of_nulFree nulFree, strChr_append inside]
  dsimp only
  rw [take_left, behind, unquoted_quoted, normalize_eUpshift keyFree,
    appendValueTo_new namedUp valueFree new]

theorem pair_single {any : Anything} {text : Bytes} {delim : Byte}
    (some' : text ≠ []) (inside : delim ∉ text) (nulFree : NulFree text) (normKey : NormalizeTag) :
    pair text delim any normKey = any.append (.charPtr text) := by
  unfold pair
  rw [cstr_of_nulFree nulFree, strChr_eq_none inside]
  exact if_pos some'

def skipChars (c : Byte) (step : Int) : Nat → Int → Bytes → Option (Int × Bytes)
  | 0, _, _ => none
  | fuel + 1, at_, str =>
    let (d, str) := operatorAt str at_
    if c = d then skipChars c step fuel (at_ + step) str
    else some (at_, str)

def trimChars (fuel : Nat) (str : Bytes) (front : Bool) (c : Byte) : Option Bytes :=
  if front then
    (skipChars c 1 fuel 0 str).map fun (at_, str) =>
      if at_ ≠ 0 then trimFront str at_ else str
  else
    (skipChars c (-1) fuel (str.length - 1) str).map fun (at_, str) =>
      if at_ ≠ str.length - 1 then trim str (at_ + 1) else str

def trimBlanksOf (fuel : Nat) (str : Bytes) (front : Bool) : Option Bytes :=
  trimChars fuel str front (ch ' ')

/-- Reading the first and the last character changes nothing. -/
def removeQuotes (fuel : Nat) (str : Bytes) : Option Bytes :=
  let first := (operatorAt str 0).1
  let last := (operatorAt str (str.length - 1)).1
  if first = ch '\'' ∧ last = ch '\'' then
    (trimChars fuel str true (ch '\'')).bind fun str =>
      trimChars fuel str false (ch '\'')
  else if first = ch '"' ∧ last = ch '"' then
    (trimChars fuel str true (ch '"')).bind fun str =>
      trimChars fuel str false (ch '"')
  else some str

open Fuel

variable {c : Byte}

theorem skipChars_stops {step at_ : Int} {str text : Bytes} {d : Byte}
    (here : operatorAt str at_ = (d, text)) (differs : c ≠ d) :
    Settles (fun fuel => skipChars c step fuel at_ str) (at_, text) := by
  refine (Settles.const (at_, text)).succ rfl fun fuel => ?_
  rw [skipChars, here]
  exact if_neg differs

theorem skipChars_goes {step at_ : Int} {str text : Bytes} {r : Int × Bytes}
    (here : operatorAt str at_ = (c, text))
    (rest : Settles (fun fuel => skipChars c step fuel (at_ + step) text) r) :
    Settles (fun fuel => skipChars c step fuel at_ str) r := by
  refine rest.succ rfl fun fuel => ?_
  rw [skipChars, here]
  exact if_pos rfl

theorem skipChars_never {step : Int} {Inv : Int → Bytes → Prop}
    (goes : ∀ at_ str, Inv at_ str → (operatorAt str at_).1 = c ∧
      Inv (at_ + step) (operatorAt str at_).2) {at_ : Int} {str : Bytes}
    (start : Inv at_ str) : Never fun fuel => skipChars c step fuel at_ str := by
  intro fuel
  induction fuel generalizing at_ str with
  | zero => rfl
  | succ fuel ih =>
    rcases goes at_ str start with ⟨same, next⟩
    exact (if_pos same.symm).trans (ih next)

theorem skipChars_forward (front rest : Bytes) (stops : c ≠ 0 ∨ ∃ d ∈ rest, d ≠ c) :
    Settles (fun fuel => skipChars c 1 fuel front.length (front ++ rest))
      (((front ++ rest.takeWhile (· = c)).length : Int), front ++ rest) := by
  induction rest generalizing front with
  | nil =>
    have notNul : c ≠ 0 := stops.resolve_right (by simp)
    rw [takeWhile_nil, append_nil]
    exact skipChars_stops (operatorAt_end front) notNul
  | cons d rest ih =>
    by_cases same : d = c
    · subst same
      have later : d ≠ 0 ∨ ∃ e ∈ rest, e ≠ d := by
        simpa only [exists_mem_cons_iff, ne_eq, not_true_eq_false, false_or] using stops
      have rest' := ih (front ++ [d]) later
      rw [length_append, length_singleton, append_assoc,
        append_assoc, singleton_append, singleton_append]
        at rest'
      rw [takeWhile_cons, if_pos (decide_eq_true rfl)]
      exact skipChars_goes (operatorAt_front front d rest) rest'
    · have other : ¬decide (d = c) = true := by
        rw [decide_eq_true_eq]
        exact same
      rw [takeWhile_cons, if_neg other, append_nil]
      exact skipChars_stops (operatorAt_front front d rest) (Ne.symm same)

theorem skipChars_backward (front rest : Bytes) (stops : ∃ d ∈ front, d ≠ c) :
    Settles (fun fuel => skipChars c (-1) fuel (front.length - 1) (front ++ rest))
      (((front.rdropWhile (· = c)).length : Int) - 1, front ++ rest) := by
  induction front using List.reverseRecOn generalizing rest with
  | nil => exact absurd stops (by simp)
  | append_singleton front d ih =>
    have place : ((front ++ [d]).length : Int) - 1 = front.length := by
      rw [length_append, length_singleton]
      omega
    have text : front ++ [d] ++ rest = front ++ d :: rest := append_assoc front [d] rest
    rw [place, text]
    by_cases same : d = c
    · subst same
      have earlier : ∃ e ∈ front, e ≠ d := by
        rcases stops with ⟨e, member, differs⟩
        rcases mem_append.mp member with before | last
        · exact ⟨e, before, differs⟩
        · exact absurd (mem_singleton.mp last) differs
      rw [rdropWhile_concat, if_pos (decide_eq_true rfl)]
      exact skipChars_goes (operatorAt_front front d rest) (ih (d :: rest) earlier)
    · have other : ¬decide (d = c) = true := by
        rw [decide_eq_true_eq]
        exact same
      rw [rdropWhile_concat, if_neg other, place]
      exact skipChars_stops (operatorAt_front front d rest) (Ne.symm same)

theorem trimChars_front {s : Bytes} (stops : c ≠ 0 ∨ ∃ d ∈ s, d ≠ c) :
    Settles (fun fuel => trimChars fuel s true c) (s.dropWhile (· = c)) := by
  have parts := @takeWhile_append_dropWhile _ (fun d => decide (d = c)) s
  have dropped : s.drop (s.takeWhile (· = c)).length = s.dropWhile (· = c) := by
    nth_rewrite 2 [← parts]
    exact drop_left
  have settles := (skipChars_forward [] s stops).map fun (r : Int × Bytes) =>
    if r.1 ≠ 0 then trimFront r.2 r.1 else r.2
  have result : (if ((s.takeWhile (· = c)).length : Int) ≠ 0 then
      trimFront s (s.takeWhile (· = c)).length else s) = s.dropWhile (· = c) := by
    rw [trimFront_nat, dropped]
    split
    · rfl
    · rename_i nothing
      rw [not_not, Int.natCast_eq_zero] at nothing
      rw [nothing, drop_zero] at dropped
      exact dropped
  rw [nil_append, nil_append, result] at settles
  exact settles

theorem trimChars_back {s : Bytes} (stops : (∃ d ∈ s, d ≠ c) ∨ s = [] ∧ c ≠ 0) :
    Settles (fun fuel => trimChars fuel s false c) (s.rdropWhile (· = c)) := by
  have skips : Settles (fun fuel => skipChars c (-1) fuel (s.length - 1) s)
      (((s.rdropWhile (· = c)).length : Int) - 1, s) := by
    rcases stops with differs | ⟨rfl, notNul⟩
    · have skips := skipChars_backward s [] differs
      rw [append_nil] at skips
      exact skips
    · exact skipChars_stops rfl notNul
  have settles := skips.map fun (r : Int × Bytes) =>
    if r.1 ≠ r.2.length - 1 then trim r.2 (r.1 + 1) else r.2
  have taken := prefix_iff_eq_take.mp ( rdropWhile_prefix (fun d => decide (d = c)) s)
  have result : (if ((s.rdropWhile (· = c)).length : Int) - 1 ≠ s.length - 1 then
        trim s ((s.rdropWhile (· = c)).length - 1 + 1) else s) =
      s.rdropWhile (· = c) := by
    rw [Int.sub_add_cancel, trim_nat, ← taken]
    split
    · rfl
    · rename_i whole
      have same : (s.rdropWhile (· = c)).length = s.length := by omega
      rw [same, take_length] at taken
      exact taken.symm
  rw [result] at settles
  exact settles

theorem trimChars_front_never {s : Bytes} (nuls : ∀ d ∈ s, d = 0) :
    Never fun fuel => trimChars fuel s true 0 := by
  have never : Never fun fuel => skipChars 0 1 fuel 0 s := by
    refine @skipChars_never 0 1 (fun _ str => ∀ d ∈ str, d = 0) ?_ 0 s nuls
    intro at_ str nuls
    rw [operatorAt]
    split
    · exact ⟨rfl, by simp⟩
    · split
      · refine ⟨rfl, fun d member => ?_⟩
        rcases mem_append.mp member with old | new
        · exact nuls d old
        · exact eq_of_mem_replicate new
      · refine ⟨?_, nuls⟩
        rcases Nat.lt_or_ge at_.toNat str.length with inside | behind
        · rw [getD_eq_getElem _ _ inside]
          exact nuls _ (getElem_mem inside)
        · exact getD_eq_default _ _ behind
  exact never.map _

theorem trimChars_back_never {s : Bytes} (all : ∀ d ∈ s, d = c)
    (loops : s ≠ [] ∨ c = 0) : Never fun fuel => trimChars fuel s false c := by
  have never : Never fun fuel => skipChars c (-1) fuel (s.length - 1) s := by
    refine @skipChars_never c (-1) (fun at_ str => at_ < s.length ∧ str = s) ?_ _ s ⟨by omega, rfl⟩
    rintro at_ str ⟨inside, rfl⟩
    rw [operatorAt_inside (Int.le_of_lt inside)]
    refine ⟨?_, by omega, rfl⟩
    cases str with
    | nil => exact (loops.resolve_left fun some' => some' rfl).symm
    | cons d str =>
      have place : at_.toNat < (d :: str).length := by
        rw [length_cons] at inside ⊢
        omega
      rw [getD_eq_getElem _ _ place]
      exact all _ (getElem_mem place)
  exact never.map _

theorem trimChars_front_iff (s : Bytes) (c : Byte) :
    Settles (fun fuel => trimChars fuel s true c) (s.dropWhile (· = c)) ↔
      c ≠ 0 ∨ ∃ d ∈ s, d ≠ c := by
  refine ⟨fun settles => ?_, trimChars_front⟩
  by_contra neither
  simp only [ne_eq, not_or, not_not, not_exists, not_and] at neither
  rcases neither with ⟨rfl, nuls⟩
  exact (trimChars_front_never nuls).not_settles _ settles

theorem trimChars_back_iff (s : Bytes) (c : Byte) :
    Settles (fun fuel => trimChars fuel s false c) (s.rdropWhile (· = c)) ↔
      (∃ d ∈ s, d ≠ c) ∨ s = [] ∧ c ≠ 0 := by
  refine ⟨fun settles => ?_, trimChars_back⟩
  by_contra neither
  simp only [ne_eq, not_or, not_exists, not_and, not_not] at neither
  rcases neither with ⟨all, loops⟩
  have never := trimChars_back_never all
    (Classical.or_iff_not_imp_left.mpr fun some' =>
      loops (Classical.not_not.mp some'))
  exact never.not_settles _ settles

def EnclosedIn (quote : Byte) (s : Bytes) : Prop := s.head? = some quote ∧ s.getLast? = some quote

instance (quote : Byte) (s : Bytes) : Decidable (EnclosedIn quote s) :=
  inferInstanceAs (Decidable (_ ∧ _))

def stripped (quote : Byte) (s : Bytes) : Bytes := (s.dropWhile (· = quote)).rdropWhile (· = quote)

def withoutQuotes (s : Bytes) : Bytes :=
  if EnclosedIn (ch '\'') s then stripped (ch '\'') s
  else if EnclosedIn (ch '"') s then stripped (ch '"') s
  else s

theorem enclosedIn_iff {quote : Byte} (notNul : quote ≠ 0) (s : Bytes) :
    ((operatorAt s 0).1 = quote ∧
      (operatorAt s (s.length - 1)).1 = quote) ↔ EnclosedIn quote s := by
  cases s with
  | nil => exact ⟨fun both => absurd both.1.symm notNul, fun none' => by
      cases none'.1⟩
  | cons d s =>
    have last : (operatorAt (d :: s) ((d :: s).length - 1)).1 =
        (d :: s).getLast (cons_ne_nil d s) := by
      rw [operatorAt_inside (by omega), length_cons,
        Int.natCast_succ, Int.add_sub_cancel, Int.toNat_natCast,
        getLast_eq_getElem, getD_eq_getElem _ _ (by simp)]
      rfl
    rw [last, operatorAt_inside (by omega), EnclosedIn,
      getLast?_eq_getLast_of_ne_nil (cons_ne_nil d s)]
    simp

/-- At the front nothing but the quote goes; then the text is empty, or a
character behind which the other loop stops is in front. -/
theorem trimChars_both {quote : Byte} (notNul : quote ≠ 0) (s : Bytes) :
    Settles
      (fun fuel => (trimChars fuel s true quote).bind fun str =>
        trimChars fuel str false quote) (stripped quote s) := by
  have first := @trimChars_front quote s (.inl notNul)
  refine first.bind (trimChars_back ?_)
  cases rest : s.dropWhile (· = quote) with
  | nil => exact .inr ⟨rfl, notNul⟩
  | cons d rest' =>
    have stops := head_dropWhile_not (fun e => decide (e = quote))
      (by rw [rest]; exact cons_ne_nil d rest')
    simp only [rest, head_cons, decide_eq_false_iff_not] at stops
    exact .inl ⟨d, mem_cons_self, stops⟩

theorem removeQuotes_settles (s : Bytes) :
    Settles (fun fuel => removeQuotes fuel s) (withoutQuotes s) := by
  unfold removeQuotes withoutQuotes
  simp only [@enclosedIn_iff (ch '\'') (by decide), @enclosedIn_iff (ch '"') (by decide)]
  split
  · exact trimChars_both (by decide) s
  · split
    · exact trimChars_both (by decide) s
    · exact .const s

/-- Exactly when trimming returns the text without the run of characters, for
both directions, and for blanks and quotes. -/
theorem trimming_iff (s : Bytes) (c : Byte) :
    (Settles (fun fuel => trimChars fuel s true c) (s.dropWhile (· = c)) ↔ c ≠ 0 ∨ ∃ d ∈ s, d ≠ c) ∧
    (Settles (fun fuel => trimChars fuel s false c)
        (s.rdropWhile (· = c)) ↔ (∃ d ∈ s, d ≠ c) ∨ s = [] ∧ c ≠ 0) ∧
    Settles (fun fuel => trimBlanksOf fuel s true)
      (s.dropWhile (· = ch ' ')) ∧
    (Settles (fun fuel => trimBlanksOf fuel s false)
        (s.rdropWhile (· = ch ' ')) ↔ (∃ d ∈ s, d ≠ ch ' ') ∨ s = []) ∧
    Settles (fun fuel => removeQuotes fuel s) (withoutQuotes s) := by
  have notNul : ch ' ' ≠ 0 := by decide
  have blanks := trimChars_back_iff s (ch ' ')
  rw [and_iff_left notNul] at blanks
  exact ⟨trimChars_front_iff s c, trimChars_back_iff s c,
    trimChars_front (.inl notNul), blanks, removeQuotes_settles s⟩

theorem trimBlanksOf_blanks :
    ¬∃ text, Settles (fun fuel => trimBlanksOf fuel (lit "   ") false) text := by
  rintro ⟨text, settles⟩
  exact (trimChars_back_never (by decide) (.inl (by decide))).not_settles text settles

end URLUtils

end Coast
