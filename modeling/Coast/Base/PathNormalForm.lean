import Coast.Base.NormalPath

/-!
# The normal form of a path

`ResolvePath` keeps the names that the walk along a path ends with, the
separator in front of them and the one behind them.
-/

namespace Coast

open Paths List

namespace SystemFile

def normalForm (path : Bytes) : Bytes :=
  (if isAbsolutePath path then [sep] else []) ++ [sep].intercalate (places path) ++
      if places path ≠ [] ∧ path.getLast? = some sep then [sep] else []

variable {path : Bytes} {names : List Bytes}

theorem joined_eq_intercalate (some' : names ≠ []) :
    joined names = sep :: [sep].intercalate names := by
  induction names with
  | nil => exact absurd rfl some'
  | cons name names ih =>
    cases names with
    | nil => simp [joined]
    | cons other names =>
      have later := ih (cons_ne_nil other names)
      have split : joined (name :: other :: names) = sep :: name ++ joined (other :: names) := rfl
      rw [split, later, intercalate_cons_cons]
      simp

theorem render_eq (absolute : Bool) (names : List Bytes) :
    render absolute names = (if absolute then [sep] else []) ++ [sep].intercalate names := by
  by_cases empty : names = []
  · rw [empty]
    cases absolute <;> rfl
  · have isJoined := joined_eq_intercalate empty
    cases absolute with
    | true => rw [render, if_pos rfl, if_pos rfl, if_neg empty, isJoined]; rfl
    | false => rw [render, if_neg (by simp), if_neg (by simp), isJoined]; rfl

theorem getLast?_tokenize (some' : path ≠ []) :
    (tokenize sep path).getLast? = some [] ↔ path.getLast? = some sep := by
  constructor
  · intro empty
    by_contra notEnd
    rcases tokenize_last some' notEnd with ⟨before, last, tokens, notEmpty⟩
    rw [tokens, getLast?_concat] at empty
    exact notEmpty (Option.some.inj empty)
  · intro ends
    rw [← dropLast_append_getLast? sep ends, tokenize_append]
    exact getLast?_concat

theorem ending_eq (some' : path ≠ []) :
    ending (places path) (tokenize sep path) =
      if places path ≠ [] ∧ path.getLast? = some sep then [sep] else [] := by
  simp only [ending, getLast?_tokenize some', and_comm]

theorem resolvePath_eq_normalForm (nulFree : NulFree path) :
    resolvePath path = normalForm path := by
  by_cases empty : path = []
  · rw [empty]
    rfl
  · rw [resolvePath_eq nulFree empty, render_eq, normalForm, ending_eq empty]

/-! ## The normal form is one -/

theorem head?_intercalate (areNames : ∀ name ∈ names, Name name) :
    ([sep].intercalate names).head? ≠ some sep := by
  cases names with
  | nil => exact nofun
  | cons name names =>
    have isName := areNames name mem_cons_self
    rcases exists_cons_of_ne_nil isName.nonempty with ⟨c, rest, same⟩
    have other : c ≠ sep := by
      intro isSep
      apply isName.free
      rw [same, isSep]
      exact mem_cons_self
    have head : ([sep].intercalate (name :: names)).head? = some c := by
      rw [same]
      cases names with
      | nil => simp
      | cons next names =>
        rw [intercalate_cons_cons]
        rfl
    rw [head]
    exact fun same => other (Option.some.inj same)

theorem isAbsolutePath_normalForm (path : Bytes) :
    isAbsolutePath (normalForm path) = isAbsolutePath path := by
  rw [normalForm]
  cases isAbsolutePath path with
  | true => rfl
  | false =>
    by_cases empty : places path = []
    · rw [empty]
      rfl
    · have notSep := head?_intercalate (places_areNames path)
      have some' : [sep].intercalate (places path) ≠ [] := by
        have whole := joined_eq_intercalate empty
        rcases exists_cons_of_ne_nil empty with ⟨name, names, same⟩
        have isName := places_areNames path name (by rw [same]; simp)
        intro none'
        rw [none', same] at whole
        exact isName.nonempty (append_eq_nil_iff.mp (List.cons.inj whole).2).1
      rcases exists_cons_of_ne_nil some' with ⟨c, rest, same⟩
      rw [same] at notSep ⊢
      exact decide_eq_false notSep

theorem tokenize_normalForm (some' : places path ≠ []) :
    tokenize sep (normalForm path) = (if isAbsolutePath path then [[]] else []) ++ places path ++
        if path.getLast? = some sep then [[]] else [] := by
  have areNames := places_areNames path
  have behind : tokenize sep (joined (places path) ++
      if path.getLast? = some sep then [sep] else []) =
        [] :: (places path ++ if path.getLast? = some sep then [[]] else []) := by
    split
    · exact tokenize_joined_append areNames []
    · rw [append_nil, append_nil]
      exact tokenize_joined areNames
  rw [joined_eq_intercalate some', cons_append, tokenize_delimiter] at behind
  have inner := (List.cons.inj behind).2
  simp only [normalForm, ne_eq, some', not_false_eq_true, true_and]
  cases isAbsolutePath path with
  | true =>
    rw [if_pos rfl, if_pos rfl, append_assoc, singleton_append,
      tokenize_delimiter, inner, append_assoc]
    rfl
  | false => exact inner

theorem normalForm_of_empty (empty : places path = []) :
    normalForm path = if isAbsolutePath path then [sep] else [] := by
  have noSlash : ¬(([] : List Bytes) ≠ [] ∧ path.getLast? = some sep) := fun both => both.1 rfl
  rw [normalForm, empty, if_neg noSlash, append_nil]
  exact append_nil _

theorem normal_normalForm (path : Bytes) : Normal (normalForm path) (places path) := by
  refine ⟨places_areNames path, ?_⟩
  rw [isAbsolutePath_normalForm]
  by_cases empty : places path = []
  · right
    rw [normalForm_of_empty empty, empty]
    cases isAbsolutePath path <;> rfl
  · rw [tokenize_normalForm empty]
    by_cases ends : path.getLast? = some sep
    · right
      rw [if_pos ends]
    · left
      rw [if_neg ends, append_nil]

theorem getLast?_of_places (some' : places path ≠ []) :
    (normalForm path).getLast? = some sep ↔ path.getLast? = some sep := by
  have tokens := tokenize_normalForm some'
  have textSome : normalForm path ≠ [] := by
    intro none'
    rcases exists_cons_of_ne_nil some' with ⟨name, names, same⟩
    have isName := places_areNames path name (by rw [same]; simp)
    have among : name ∈ tokenize sep [] := by
      rw [none', same] at tokens
      rw [tokens]
      simp
    exact isName.nonempty (mem_singleton.mp among)
  rw [← getLast?_tokenize textSome, tokens]
  by_cases ends : path.getLast? = some sep
  · rw [if_pos ends]
    exact iff_of_true getLast?_concat ends
  · apply iff_of_false _ ends
    rw [if_neg ends, append_nil, getLast?_append_of_ne_nil _ some']
    intro emptyLast
    have member := mem_of_getLast? emptyLast
    exact (places_areNames path [] member).nonempty rfl

theorem getLast?_normalForm (some' : normalForm path ≠ []) :
    (normalForm path).getLast? = some sep ↔ path.getLast? = some sep ∨ normalForm path = [sep] := by
  by_cases empty : places path = []
  · have isRoot : normalForm path = [sep] := by
      rw [normalForm_of_empty empty] at some' ⊢
      split at some'
      · exact if_pos (by assumption)
      · exact absurd rfl some'
    rw [isRoot]
    exact iff_of_true rfl (Or.inr rfl)
  · have last := getLast?_of_places empty
    constructor
    · exact fun ends => Or.inl (last.mp ends)
    · rintro (ends | isRoot)
      · exact last.mpr ends
      · rw [isRoot]
        rfl

theorem tokenize_injective {first second : Bytes}
    (same : tokenize sep first = tokenize sep second) : first = second := by
  have glued : ∀ s : Bytes, [sep].intercalate (tokenize sep s) = s := by
    intro s
    induction s with
    | nil => rfl
    | cons c s ih =>
      rcases exists_cons_of_ne_nil (tokenize_ne_nil sep s) with ⟨token, tokens, rest⟩
      by_cases isSep : c = sep
      · rw [isSep, tokenize_delimiter]
        rw [rest] at ih ⊢
        rw [intercalate_cons_cons, ih]
        rfl
      · rw [tokenize_char isSep rest]
        rw [rest] at ih
        cases tokens with
        | nil =>
          rw [intercalate_singleton] at ih ⊢
          rw [ih]
        | cons next tokens =>
          rw [intercalate_cons_cons] at ih ⊢
          rw [← ih]
          rfl
  rw [← glued first, same, glued]

theorem length_joined_follow (tokens : List Bytes) :
    (joined (follow [] (tokens.map segment))).length ≤ (tokens.map (·.length + 1)).sum := by
  have bound := (size_follow segment_size (fun _ _ => Nat.succ_pos _) [] tokens).1
  rwa [← length_joined, map_nil, sum_nil, Nat.zero_add] at bound

theorem length_normalForm_le (path : Bytes) : (normalForm path).length ≤ path.length := by
  by_cases empty : places path = []
  · rw [normalForm_of_empty empty]
    split
    · rename_i absolute
      cases path with
      | nil => cases absolute
      | cons c path => exact Nat.succ_le_succ (Nat.zero_le _)
    · exact Nat.zero_le _
  · rcases tokenize_frame path with ⟨tokens, slash, frame, ends⟩
    have isPlaces : places path = follow [] (tokens.map segment) := by
      rw [places, frame, follow_frame]
    have costs := length_tokenize (d := sep) path
    rw [frame, weight_frame] at costs
    have shorter := length_joined_follow tokens
    have behind := length_ending frame ends empty
    have some' : path ≠ [] := by
      rintro rfl
      exact empty rfl
    have sizes := congrArg List.length (joined_eq_intercalate empty)
    rw [ending_eq some'] at behind
    rw [← isPlaces, sizes, length_cons] at shorter
    rw [normalForm, length_append, length_append, behind]
    cases absolute : isAbsolutePath path with
    | true =>
      rw [absolute, Bool.toNat_true] at costs
      rw [if_pos rfl, length_singleton]
      omega
    | false =>
      rw [absolute, Bool.toNat_false] at costs
      rw [if_neg nofun, length_nil]
      omega

theorem Normal.places_eq (normal : Normal path names) : places path = names := by
  have kept : follow [] (names.map segment) = names := by
    have moves : names.map segment = names.map Move.down :=
      map_congr_left fun name member =>
        segment_name (normal.areNames name member)
    rw [moves, follow_names]
    rfl
  rw [places]
  rcases normal.tokens with tokens | tokens
  · have framed := follow_frame (isAbsolutePath path) false names
    rw [if_neg Bool.false_ne_true, append_nil] at framed
    rw [tokens, framed, kept]
  · have framed := follow_frame (isAbsolutePath path) true names
    rw [if_pos rfl] at framed
    rw [tokens, framed, kept]

theorem normalForm_of_length (nulFree : NulFree path)
    (same : (normalForm path).length = path.length) :
    normalForm path = path := by
  by_cases none' : path = []
  · rw [none']
    rfl
  · rw [← resolvePath_eq_normalForm nulFree] at same
    rcases normal_of_length nulFree none' same with ⟨names, normal⟩
    have isPlaces : places path = names := normal.places_eq
    have last := getLast?_tokenize none'
    apply tokenize_injective
    by_cases empty : names = []
    · rw [normalForm_of_empty (isPlaces.trans empty)]
      rcases normal.tokens with tokens | tokens
      · exfalso
        rw [empty, append_nil] at tokens
        split at tokens
        · exact none' (tokenize_injective tokens)
        · exact tokenize_ne_nil sep path tokens
      · rw [tokens, empty]
        cases isAbsolutePath path <;> rfl
    · rw [tokenize_normalForm (by rwa [isPlaces]), isPlaces]
      rcases normal.tokens with tokens | tokens
      · rw [tokens] at last ⊢
        have notEnd : path.getLast? ≠ some sep := by
          rw [← last.ne, getLast?_append_of_ne_nil _ empty]
          intro emptyLast
          have member := mem_of_getLast? emptyLast
          exact (normal.areNames [] member).nonempty rfl
        rw [if_neg notEnd, append_nil]
      · rw [tokens, getLast?_concat] at last
        rw [tokens, if_pos (last.mp rfl)]

structure IsNormalForm (path result : Bytes) : Prop where
  text : result = normalForm path
  /-- names, and empty segments at the ends only -/
  segments : Normal result (places path)
  absolute : isAbsolutePath result = isAbsolutePath path
  slash : result ≠ [] → (result.getLast? = some sep ↔ path.getLast? = some sep ∨ result = [sep])
  shorter : result.length ≤ path.length
  kept : result.length = path.length → result = path
  again : resolvePath result = result

theorem mem_of_mem_tokenize {token : Bytes} {c : Byte}
    (member : token ∈ tokenize sep path) (inside : c ∈ token) : c ∈ path := by
  induction path generalizing token with
  | nil =>
    rw [mem_singleton.mp member] at inside
    cases inside
  | cons b path ih =>
    rcases exists_cons_of_ne_nil (tokenize_ne_nil sep path) with ⟨first, rest, tokens⟩
    by_cases isSep : b = sep
    · rw [isSep, tokenize_delimiter] at member
      rcases mem_cons.mp member with empty | later
      · rw [empty] at inside
        cases inside
      · exact mem_cons_of_mem b (ih later inside)
    · rw [tokenize_char isSep tokens] at member
      rw [tokens] at ih
      rcases mem_cons.mp member with head | later
      · rw [head] at inside
        rcases mem_cons.mp inside with same | inFirst
        · rw [same]
          exact mem_cons_self
        · exact mem_cons_of_mem b (ih mem_cons_self inFirst)
      · exact mem_cons_of_mem b (ih (mem_cons_of_mem first later) inside)

theorem mem_of_mem_places {name : Bytes} (member : name ∈ places path) :
    name ∈ tokenize sep path := by
  have general : ∀ (tokens here : List Bytes), name ∈ follow here (tokens.map segment) →
      (∀ token ∈ tokens, sep ∉ token) → name ∈ here ∨ name ∈ tokens := by
    intro tokens
    induction tokens with
    | nil => exact fun here among _ => Or.inl among
    | cons token tokens ih =>
      intro here among free
      have later : ∀ other ∈ tokens, sep ∉ other := (forall_mem_cons.mp free).2
      rw [map_cons] at among
      cases moves : segment token with
      | stay =>
        rw [moves] at among
        exact (ih here among later).imp_right (mem_cons_of_mem token)
      | up =>
        rw [moves] at among
        exact (ih _ among later).imp (fun kept =>
          dropLast_subset here kept) (mem_cons_of_mem token)
      | down name' =>
        have same := (segment_down (free token mem_cons_self) moves).1
        rw [moves, same] at among
        rcases ih _ among later with before | after
        · rcases mem_append.mp before with kept | last
          · exact Or.inl kept
          · rw [mem_singleton.mp last]
            exact Or.inr mem_cons_self
        · exact Or.inr (mem_cons_of_mem token after)
  rcases general _ [] member fun _ inTokens => not_mem_tokenize inTokens with none' | found
  · cases none'
  · exact found

theorem nulFree_normalForm (nulFree : NulFree path) : NulFree (normalForm path) := by
  have notSep : (0 : Byte) ≠ sep := by decide
  have inNames : (0 : Byte) ∉ joined (places path) := by
    intro member
    rcases mem_flatMap.mp member with ⟨name, among, inside⟩
    rcases mem_cons.mp inside with isSep | inside
    · exact notSep isSep
    · exact nulFree (mem_of_mem_tokenize (mem_of_mem_places among) inside)
  intro member
  rw [normalForm] at member
  rcases mem_append.mp member with front | behind
  · rcases mem_append.mp front with first | inner
    · split at first
      · exact notSep (mem_singleton.mp first)
      · cases first
    · by_cases empty : places path = []
      · rw [empty] at inner
        cases inner
      · rw [joined_eq_intercalate empty] at inNames
        exact inNames (mem_cons_of_mem sep inner)
  · split at behind
    · exact notSep (mem_singleton.mp behind)
    · cases behind

theorem normalForm_normalForm (path : Bytes) : normalForm (normalForm path) = normalForm path := by
  have samePlaces := (normal_normalForm path).places_eq
  have sameAbsolute := isAbsolutePath_normalForm path
  by_cases empty : places path = []
  · rw [normalForm_of_empty (samePlaces.trans empty), sameAbsolute, normalForm_of_empty empty]
  · nth_rewrite 1 [normalForm]
    rw [sameAbsolute, samePlaces]
    simp only [getLast?_of_places empty]
    rfl

/-- Every path is resolved to its normal form. -/
theorem resolvePath_isNormalForm (nulFree : NulFree path) :
    IsNormalForm path (resolvePath path) := by
  have text := resolvePath_eq_normalForm nulFree
  rw [text]
  exact {
    text := rfl
    segments := normal_normalForm path
    absolute := isAbsolutePath_normalForm path
    slash := getLast?_normalForm
    shorter := length_normalForm_le path
    kept := normalForm_of_length nulFree
    again := by
      rw [resolvePath_eq_normalForm (nulFree_normalForm nulFree)]
      exact normalForm_normalForm path }

theorem resolvePath_isNormalForm_mixed :
    resolvePath (lit "/a/./b//../c/") = lit "/a/c/" ∧ IsNormalForm (lit "/a/./b//../c/")
        (resolvePath (lit "/a/./b//../c/")) :=
  ⟨by decide, resolvePath_isNormalForm (by decide)⟩

end SystemFile

end Coast
