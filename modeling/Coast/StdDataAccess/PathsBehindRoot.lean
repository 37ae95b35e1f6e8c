import Coast.Base.NormalPath

/-!
# Texts behind a document root

A text that is put behind the document root is a walk that begins at the root.
When it does not begin with a slash it goes on with the last segment of the
root, so the walk first leaves the root.
-/

namespace Coast

open Paths List

namespace SystemFile

def lastSegment (s : Bytes) : Bytes := (tokenize sep s).getLast?.getD []

def placesBefore (s : Bytes) : List Bytes := follow [] ((tokenize sep s).dropLast.map segment)

/-- The walk from a path back to the place in front of its last segment. -/
def backward (root : Bytes) : List (Move Bytes) :=
  match segment (lastSegment root) with
  | .stay => []
  | .down _ => [.up]
  | .up => ((placesBefore root).getLast?.map .down).toList

/-- The walk along a text that goes on with the last segment of the root. -/
def detour (root u : Bytes) : List (Move Bytes) :=
  match tokenize sep u with
  | [] => []
  | token :: tokens =>
    backward root ++ segment (lastSegment root ++ token) :: tokens.map segment

def walkBehind (root u : Bytes) : List (Move Bytes) :=
  if u = [] then []
  else if u.head? = some sep ∨ root.getLast? = some sep then
    (tokenize sep u).map segment
  else detour root u

def rootFor (root u : Bytes) : Bytes :=
  if root.getLast? = some sep ∧ u.head? = some sep then root.dropLast
  else root

/-- The walk goes up no further than it comes down again by the same names. -/
def Stays (root u : Bytes) : Prop :=
  (places root).drop ((places root).length - (Walk.ofMoves (walkBehind root u)).up) <+:
    (Walk.ofMoves (walkBehind root u)).names

theorem places_append (s u : Bytes) :
    places (s ++ sep :: u) = follow (places s) ((tokenize sep u).map segment) := by
  unfold places
  rw [tokenize_append, map_append, follow_append]

theorem places_slash (s : Bytes) : places (s ++ [sep]) = places s := places_append s []

theorem tokenize_lastSegment (s : Bytes) :
    tokenize sep s = (tokenize sep s).dropLast ++ [lastSegment s] := by
  unfold lastSegment
  rw [getLast?_eq_some_getLast (tokenize_ne_nil sep s)]
  exact (dropLast_append_getLast (tokenize_ne_nil sep s)).symm

theorem places_lastSegment (s : Bytes) :
    places s = follow (placesBefore s) [segment (lastSegment s)] := by
  unfold places placesBefore
  rw [← follow_append, ← map_singleton, ← map_append, ← tokenize_lastSegment]

theorem follow_backward (root : Bytes) :
    follow (places root) (backward root) = placesBefore root := by
  unfold backward
  rw [places_lastSegment]
  cases segment (lastSegment root) with
  | stay => rfl
  | down name => exact dropLast_concat
  | up =>
    rcases eq_nil_or_concat (placesBefore root) with empty | ⟨front, name, same⟩
    · rw [empty]
      rfl
    · rw [same, concat_eq_append, getLast?_concat]
      show (front ++ [name]).dropLast ++ [name] = _
      rw [dropLast_concat]

theorem places_behind (root u : Bytes) :
    places (rootFor root u ++ u) = follow (places root) (walkBehind root u) := by
  unfold walkBehind rootFor
  by_cases empty : u = []
  · rw [if_pos empty, empty, append_nil, head?_nil, if_neg fun both => nomatch both.2]
    rfl
  · rw [if_neg empty]
    by_cases slash : u.head? = some sep
    · rcases head?_eq_some_iff.mp slash with ⟨rest, same⟩
      by_cases ends : root.getLast? = some sep
      · rw [if_pos ⟨ends, slash⟩, if_pos (.inl slash)]
        rcases getLast?_eq_some_iff.mp ends with ⟨front, isRoot⟩
        rw [isRoot, places_slash, dropLast_concat, same, places_append, tokenize_delimiter]
        rfl
      · rw [if_neg fun both => ends both.1, if_pos (.inl slash), same,
          places_append, tokenize_delimiter]
        rfl
    · rw [if_neg fun both => slash both.2]
      by_cases ends : root.getLast? = some sep
      · rw [if_pos (.inr ends)]
        rcases getLast?_eq_some_iff.mp ends with ⟨front, isRoot⟩
        rw [isRoot, places_slash, append_assoc]
        exact places_append front u
      · rw [if_neg (not_or.mpr ⟨slash, ends⟩)]
        rcases tokenize_glue (d := sep) root u with
            ⟨before, last, token, after, isRoot, isText, both⟩
        have front : placesBefore root = follow [] (before.map segment) := by
          unfold placesBefore
          rw [isRoot, dropLast_concat]
        have isLast : lastSegment root = last := by
          unfold lastSegment
          rw [isRoot, getLast?_concat]
          rfl
        unfold detour
        rw [isText]
        dsimp only
        rw [follow_append, follow_backward, front, isLast]
        unfold places
        rw [both, map_append, follow_append]
        rfl

variable {root u : Bytes}

theorem absolute_rootFor (absolute : Absolute root)
    (nulFree : NulFree u) : Absolute (rootFor root u ++ u) := by
  have starts : root.head? = some sep := of_decide_eq_true absolute.absolute
  rcases head?_eq_some_iff.mp starts with ⟨rest, isRoot⟩
  unfold rootFor
  split
  · rename_i both
    rcases head?_eq_some_iff.mp both.2 with ⟨tail, isText⟩
    constructor
    · intro member
      rcases mem_append.mp member with inRoot | inText
      · exact absolute.nulFree (dropLast_subset root inRoot)
      · exact nulFree inText
    · rw [isRoot, isText]
      cases rest with
      | nil => rfl
      | cons c rest => rfl
  · constructor
    · intro member
      rcases mem_append.mp member with inRoot | inText
      · exact absolute.nulFree inRoot
      · exact nulFree inText
    · rw [isRoot]
      rfl

theorem below_iff_stays (absolute : Absolute root) (nulFree : NulFree u) :
    Below root (rootFor root u ++ u) ↔ Stays root u := by
  rw [below_iff absolute (absolute_rootFor absolute nulFree), places_behind]
  exact prefix_follow_iff (places root) (walkBehind root u)

/-! ## Texts without anything to resolve -/

def Plain (u : Bytes) : Prop := ∀ token ∈ tokenize sep u, token = [] ∨ Name token

/-- The root takes the text in: the text begins behind a slash, or the last
segment that it goes on with names no directory. -/
def TakesIn (root u : Bytes) : Prop :=
  u = [] ∨ u.head? = some sep ∨ root.getLast? = some sep ∨
    lastSegment root = lit "." ∨ lastSegment root = lit ".."

instance (root u : Bytes) : Decidable (TakesIn root u) := inferInstanceAs (Decidable (_ ∨ _))

theorem Normal.plain {s : Bytes} {names : List Bytes} (normal : Normal s names) : Plain s := by
  intro token member
  have front : token ∈ (if isAbsolutePath s then [([] : Bytes)] else []) → token = [] := by
    intro inFront
    split at inFront
    · exact mem_singleton.mp inFront
    · exact absurd inFront not_mem_nil
  rcases normal.tokens with same | same
  · rw [same] at member
    rcases mem_append.mp member with inFront | name
    · exact .inl (front inFront)
    · exact .inr (normal.areNames token name)
  · rw [same] at member
    rcases mem_append.mp member with before | last
    · rcases mem_append.mp before with inFront | name
      · exact .inl (front inFront)
      · exact .inr (normal.areNames token name)
    · exact .inl (mem_singleton.mp last)

theorem plain_of_length {s : Bytes} (nulFree : NulFree s)
    (same : (resolvePath s).length = s.length) : Plain s := by
  by_cases empty : s = []
  · rw [empty]
    intro token member
    exact .inl (mem_singleton.mp member)
  · rcases normal_of_length nulFree empty same with ⟨names, normal⟩
    exact normal.plain

theorem Plain.slash {s : Bytes} (plain : Plain s) : Plain (s ++ [sep]) := by
  intro token member
  rw [tokenize_append] at member
  rcases mem_append.mp member with before | last
  · exact plain token before
  · exact .inl (mem_singleton.mp last)

theorem name_append {token long : Bytes} (plain : token = [] ∨ Name token)
    (free : sep ∉ long) (length : 2 < long.length) : Name (token ++ long) := by
  have longer : 2 < (token ++ long).length := by
    rw [length_append]
    omega
  constructor
  · intro empty
    rw [empty] at longer
    cases longer
  · intro member
    rcases mem_append.mp member with inToken | inLong
    · rcases plain with empty | isName
      · rw [empty] at inToken
        exact not_mem_nil inToken
      · exact isName.free inToken
    · exact free inLong
  · intro same
    rw [same] at longer
    exact absurd longer (by decide)
  · intro same
    rw [same] at longer
    exact absurd longer (by decide)

theorem Plain.append {s long : Bytes} (plain : Plain s) (free : sep ∉ long)
    (length : 2 < long.length) : Plain (s ++ long) := by
  rcases tokenize_glue (d := sep) s long with ⟨before, last, token, after, isFirst, isSecond, both⟩
  rw [tokenize_single free] at isSecond
  cases isSecond
  intro token member
  rw [both] at member
  unfold Plain at plain
  rw [isFirst] at plain
  rcases mem_append.mp member with inBefore | isLast
  · exact plain token (mem_append_left _ inBefore)
  · rw [mem_singleton.mp isLast]
    have atLast := plain last (mem_append_right _ (mem_singleton_self last))
    exact .inr (name_append atLast free length)

theorem prefix_follow_plain {here start : List Bytes} (below : here <+: start)
    {tokens : List Bytes} (plain : ∀ token ∈ tokens, token = [] ∨ Name token) :
    here <+: follow start (tokens.map segment) := by
  induction tokens generalizing start with
  | nil => exact below
  | cons token tokens ih =>
    have later : ∀ other ∈ tokens, other = [] ∨ Name other := (forall_mem_cons.mp plain).2
    rw [map_cons]
    rcases plain token mem_cons_self with empty | isName
    · rw [empty]
      exact ih below later
    · rw [segment_name isName]
      exact ih (below.trans (prefix_append start [token])) later

theorem name_glue {last token : Bytes} (some' : last ≠ [])
    (free : sep ∉ last) (isName : Name token) : Name (last ++ token) := by
  have first := length_pos_iff.mpr some'
  have second := length_pos_iff.mpr isName.nonempty
  constructor
  · exact append_ne_nil_of_left_ne_nil some' token
  · intro member
    rcases mem_append.mp member with inLast | inToken
    · exact free inLast
    · exact isName.free inToken
  · intro same
    have lengths := congrArg List.length same
    rw [length_append] at lengths
    have one : (lit ".").length = 1 := rfl
    omega
  · intro same
    have lengths := congrArg List.length same
    rw [length_append] at lengths
    have two : (lit "..").length = 2 := rfl
    have one : last.length = (lit ".").length := by
      have one : (lit ".").length = 1 := rfl
      omega
    exact isName.notDot (append_inj same one).2

theorem follow_detour {token : Bytes} {tokens : List Bytes}
    (isText : tokenize sep u = token :: tokens) (isName : Name (lastSegment root ++ token)) :
    follow (places root) (detour root u) =
      follow (placesBefore root ++ [lastSegment root ++ token]) (tokens.map segment) := by
  unfold detour
  rw [isText]
  dsimp only
  rw [follow_append, follow_backward, segment_name isName]
  rfl

theorem first_token (some' : u ≠ []) (noSlash : u.head? ≠ some sep) :
    ∃ token tokens, tokenize sep u = token :: tokens ∧ token ≠ [] := by
  cases u with
  | nil => exact absurd rfl some'
  | cons c u =>
    have other : c ≠ sep := fun same => noSlash (congrArg some same)
    rcases exists_cons_of_ne_nil (tokenize_ne_nil sep u) with ⟨token, tokens, rest⟩
    exact ⟨c :: token, tokens, tokenize_char other rest, cons_ne_nil c token⟩

theorem prefix_detour_iff (rootSome : root ≠ []) (ends : root.getLast? ≠ some sep) (some' : u ≠ [])
    (noSlash : u.head? ≠ some sep) (plain : Plain u) :
    places root <+: follow (places root) (detour root u) ↔
      lastSegment root = lit "." ∨ lastSegment root = lit ".." := by
  rcases first_token some' noSlash with ⟨token, tokens, isText, tokenSome⟩
  unfold Plain at plain
  rw [isText] at plain
  have isName := (plain token mem_cons_self).resolve_left tokenSome
  have later : ∀ other ∈ tokens, other = [] ∨ Name other := (forall_mem_cons.mp plain).2
  rcases tokenize_last rootSome ends with ⟨before, last, isRoot, lastSome⟩
  have isLast : lastSegment root = last := by
    unfold lastSegment
    rw [isRoot, getLast?_concat]
    rfl
  have free : sep ∉ last := by
    apply not_mem_tokenize (s := root)
    rw [isRoot]
    exact mem_append_right _ (mem_singleton_self last)
  have whole := places_lastSegment root
  rw [follow_detour isText (isLast ▸ name_glue lastSome free isName)]
  rw [isLast] at whole ⊢
  have below : placesBefore root <+:
      placesBefore root ++ [last ++ token] := prefix_append _ _
  constructor
  · intro stays
    by_contra neither
    rw [not_or] at neither
    have lastName : Name last := ⟨lastSome, free, neither.1, neither.2⟩
    rw [segment_name lastName] at whole
    change places root = placesBefore root ++ [last] at whole
    rw [whole] at stays
    have other := prefix_follow_plain
      (prefix_refl (placesBefore root ++ [last ++ token])) later
    have same := (prefix_of_prefix_length_le stays other (by
      rw [length_append, length_append]
      exact Nat.le_refl _)).eq_of_length (by
        rw [length_append, length_append]
        rfl)
    have parts := append_cancel_left same
    have shorter := congrArg List.length (singleton_inj.mp parts)
    rw [length_append] at shorter
    exact tokenSome (length_eq_zero_iff.mp (by omega))
  · rintro (dot | dotDot)
    · rw [dot] at whole
      change places root = placesBefore root at whole
      rw [whole]
      exact prefix_follow_plain below later
    · rw [dotDot] at whole
      change places root = (placesBefore root).dropLast at whole
      rw [whole]
      exact prefix_follow_plain (( dropLast_prefix _).trans below) later

/-- Staying below the root, said by the segments. -/
theorem stays_iff_takesIn (rootSome : root ≠ [])
    (plain : Plain u) : Stays root u ↔ TakesIn root u := by
  unfold Stays TakesIn
  rw [← prefix_follow_iff]
  unfold walkBehind
  by_cases empty : u = []
  · rw [if_pos empty]
    exact ⟨fun _ => .inl empty, fun _ => prefix_refl _⟩
  · rw [if_neg empty]
    by_cases slash : u.head? = some sep ∨ root.getLast? = some sep
    · rw [if_pos slash]
      constructor
      · intro _
        exact .inr (slash.imp_right .inl)
      · intro _
        exact prefix_follow_plain (prefix_refl _) plain
    · rw [if_neg slash]
      rw [not_or] at slash
      rw [prefix_detour_iff rootSome slash.2 empty slash.1 plain]
      constructor
      · intro dots
        exact .inr (.inr (.inr dots))
      · intro takesIn
        exact ((takesIn.resolve_left empty).resolve_left slash.1).resolve_left slash.2

end SystemFile

end Coast
