import Coast.Base.ResolvePath

/-!
# Paths below a directory

A path is below a directory when the walk along it ends at or below the place
of the directory.  A path that keeps its length when it is resolved was
resolved before.
-/

namespace Coast

open Paths List

namespace SystemFile

def withoutSlash (s : Bytes) : Bytes := if s.getLast? = some sep then s.dropLast else s

/-- A file is the directory `root` or below it, after both were resolved. -/
def Below (root file : Bytes) : Prop :=
  resolvePath file = withoutSlash (resolvePath root) ∨
    withoutSlash (resolvePath root) ++ [sep] <+: resolvePath file

structure Absolute (s : Bytes) : Prop where
  nulFree : NulFree s
  absolute : isAbsolutePath s = true

variable {s : Bytes}

theorem Absolute.ne_nil (isAbsolute : Absolute s) : s ≠ [] := by
  intro empty
  have absolute := isAbsolute.absolute
  rw [empty] at absolute
  cases absolute

theorem places_areNames (s : Bytes) : ∀ name ∈ places s, Name name :=
  follow_areNames (fun _ member => absurd member not_mem_nil)
    fun _ member => not_mem_tokenize member

theorem ending_cases (names tokens : List Bytes) :
    ending names tokens = [] ∨ names ≠ [] ∧ ending names tokens = [sep] := by
  unfold ending
  split
  · rename_i both
    exact .inr ⟨both.2, rfl⟩
  · exact .inl rfl

/-! ## The tokens of a resolved path -/

variable {names : List Bytes}

theorem tokenize_joined_append (areNames : ∀ name ∈ names, Name name) (rest : Bytes) :
    tokenize sep (joined names ++ sep :: rest) = [] :: (names ++ tokenize sep rest) := by
  induction names with
  | nil => exact tokenize_delimiter rest
  | cons name names ih =>
    have isName := areNames name mem_cons_self
    have later := ih (forall_mem_cons.mp areNames).2
    obtain ⟨tail, isTail⟩ : ∃ tail, joined names ++ sep :: rest = sep :: tail := by
      cases names with
      | nil => exact ⟨rest, rfl⟩
      | cons other names => exact ⟨_, rfl⟩
    have split : joined (name :: names) ++ sep :: rest = sep :: (name ++ sep :: tail) := by
      rw [← isTail]
      show sep :: name ++ joined names ++ sep :: rest = _
      rw [append_assoc]
      rfl
    rw [isTail, tokenize_delimiter] at later
    rw [split, tokenize_delimiter, tokenize_append,
      tokenize_single isName.free, (List.cons.inj later).2]
    rfl

theorem tokenize_joined (areNames : ∀ name ∈ names, Name name) :
    tokenize sep (joined names) = [] :: names := by
  rcases eq_nil_or_concat names with empty | ⟨front, name, same⟩
  · rw [empty]
    rfl
  · rw [concat_eq_append] at same
    rw [same] at areNames ⊢
    have isName := areNames name (mem_append_right _ (mem_singleton_self name))
    rw [joined_concat, tokenize_joined_append (fun other member =>
      areNames other (mem_append_left _ member)),
      tokenize_single isName.free]

theorem resolvePath_absolute (isAbsolute : Absolute s) :
    resolvePath s = joined (places s) ∨ resolvePath s = joined (places s) ++ [sep] := by
  rw [resolvePath_eq isAbsolute.nulFree isAbsolute.ne_nil, isAbsolute.absolute]
  unfold render
  rw [if_pos rfl]
  rcases ending_cases (places s) (tokenize sep s) with none' | ⟨some', one⟩
  · rw [none', append_nil]
    split
    · rename_i empty
      rw [empty]
      exact .inr rfl
    · exact .inl rfl
  · rw [one, if_neg some']
    exact .inr rfl

theorem joined_getLast (areNames : ∀ name ∈ names, Name name) :
    (joined names).getLast? ≠ some sep := by
  by_cases empty : names = []
  · rw [empty]
    exact nofun
  · have ends := (render_getLast true areNames empty).2
    unfold render at ends
    rwa [if_pos rfl, if_neg empty] at ends

theorem withoutSlash_resolvePath (isAbsolute : Absolute s) :
    withoutSlash (resolvePath s) = joined (places s) := by
  unfold withoutSlash
  rcases resolvePath_absolute isAbsolute with plain | slash
  · rw [plain, if_neg (joined_getLast (places_areNames s))]
  · rw [slash, getLast?_concat, if_pos rfl, dropLast_concat]

theorem tokenize_resolvePath (isAbsolute : Absolute s) :
    tokenize sep (resolvePath s) = [] :: places s ∨
      tokenize sep (resolvePath s) = [] :: (places s ++ [[]]) := by
  have areNames := places_areNames s
  rcases resolvePath_absolute isAbsolute with plain | slash
  · rw [plain]
    exact .inl (tokenize_joined areNames)
  · rw [slash]
    exact .inr (tokenize_joined_append areNames [])

theorem tokenize_below {root file : Bytes} (isAbsolute : Absolute root) (below : Below root file) :
    ∃ rest, tokenize sep (resolvePath file) = [] :: (places root ++ rest) := by
  have areNames := places_areNames root
  unfold Below at below
  rw [withoutSlash_resolvePath isAbsolute] at below
  rcases below with same | ⟨rest, same⟩
  · rw [same, tokenize_joined areNames]
    exact ⟨[], by rw [append_nil]⟩
  · rw [← same, append_assoc]
    exact ⟨_, tokenize_joined_append areNames rest⟩

theorem below_iff {root file : Bytes} (absoluteRoot : Absolute root)
    (absoluteFile : Absolute file) :
    Below root file ↔ places root <+: places file := by
  have areRoot := places_areNames root
  constructor
  · intro below
    rcases tokenize_below absoluteRoot below with ⟨rest, tokens⟩
    rcases tokenize_resolvePath absoluteFile with plain | slash
    · rw [plain] at tokens
      exact ⟨rest, (List.cons.inj tokens).2.symm⟩
    · rw [slash] at tokens
      have longer : places root <+: places file ++ [[]] := ⟨rest, (List.cons.inj tokens).2.symm⟩
      rcases prefix_concat_iff.mp longer with same | shorter
      · have member : [] ∈ places root := by
          rw [same]
          exact mem_append_right _ (mem_singleton_self [])
        exact absurd rfl (areRoot [] member).nonempty
      · exact shorter
  · rintro ⟨names, same⟩
    have resolves := resolvePath_absolute absoluteFile
    unfold Below
    rw [withoutSlash_resolvePath absoluteRoot]
    rw [← same] at resolves
    cases names with
    | nil =>
      rw [append_nil] at resolves
      rcases resolves with plain | slash
      · exact .inl plain
      · exact .inr ⟨[], by rw [slash, append_nil]⟩
    | cons name names =>
      have split : joined (places root ++ name :: names) =
          joined (places root) ++ [sep] ++ (name ++ joined names) := by
        unfold joined
        rw [flatMap_append, flatMap_cons, append_assoc]
        rfl
      rw [split] at resolves
      rcases resolves with plain | slash
      · exact .inr ⟨_, plain.symm⟩
      · refine .inr ⟨name ++ joined names ++ [sep], ?_⟩
        rw [slash, append_assoc (joined (places root) ++ [sep]) _ [sep]]

/-! ## Paths that keep their length -/

/-- A path of names, with empty segments at its ends only. -/
structure Normal (s : Bytes) (names : List Bytes) : Prop where
  areNames : ∀ name ∈ names, Name name
  tokens : tokenize sep s = (if isAbsolutePath s then [[]] else []) ++ names ∨
    tokenize sep s = (if isAbsolutePath s then [[]] else []) ++ names ++ [[]]

theorem length_joined (names : List Bytes) :
    (joined names).length = (names.map (·.length + 1)).sum := by
  induction names with
  | nil => rfl
  | cons name names ih =>
    show (sep :: name ++ joined names).length = _
    rw [length_append, ih, map_cons, sum_cons, length_cons]

theorem segment_size (token name : Bytes) (down : segment token = .down name) :
    name.length + 1 = token.length + 1 := by
  rw [segment] at down
  repeat' split at down
  all_goals cases down
  rfl

variable {tokens : List Bytes}

theorem names_of_length (free : ∀ token ∈ tokens, sep ∉ token)
    (long : (joined (follow [] (tokens.map segment))).length = (tokens.map (·.length + 1)).sum) :
    ∀ token ∈ tokens, Name token := by
  rw [length_joined] at long
  intro token member
  have all : ∀ token ∈ tokens, ∃ name, segment token = .down name := by
    apply (size_follow segment_size (fun _ _ => Nat.succ_pos _) [] tokens).2
    rwa [map_nil, sum_nil, Nat.zero_add]
  rcases all token member with ⟨name, moves⟩
  exact (segment_down (free token member) moves).2

theorem follow_frame (absolute slash : Bool) (tokens : List Bytes) :
    follow [] ((((if absolute then [[]] else []) ++ tokens ++
      (if slash then [[]] else [])).map segment)) = follow [] (tokens.map segment) := by
  rw [map_append, map_append, follow_append]
  have after : ∀ here, follow here ((if slash then [([] : Bytes)] else []).map segment) = here := by
    intro here
    cases slash <;> rfl
  rw [after]
  cases absolute <;> rfl

theorem tokenize_absolute (absolute : isAbsolutePath s = true) :
    ∃ tokens, tokenize sep s = [] :: tokens ∧ tokens ≠ [] := by
  cases s with
  | nil => cases absolute
  | cons c s =>
    have same : c = sep := Option.some.inj (of_decide_eq_true absolute)
    exact ⟨tokenize sep s, by rw [same, tokenize_delimiter], tokenize_ne_nil sep s⟩

theorem tokenize_frame (s : Bytes) :
    ∃ tokens slash, tokenize sep s =
        (if isAbsolutePath s then [[]] else []) ++ tokens ++ (if slash then [[]] else []) ∧
      (slash = false → tokens.getLast? ≠ some [] ∧ tokens ≠ []) := by
  obtain ⟨inner, isInner, some'⟩ : ∃ inner, tokenize sep s =
      (if isAbsolutePath s then [[]] else []) ++ inner ∧ inner ≠ [] := by
    cases absolute : isAbsolutePath s with
    | true => exact tokenize_absolute absolute
    | false => exact ⟨_, rfl, tokenize_ne_nil sep s⟩
  by_cases ends : inner.getLast? = some []
  · refine ⟨inner.dropLast, true, ?_, nofun⟩
    rw [isInner, append_assoc, if_pos rfl, dropLast_append_getLast? [] ends]
  · refine ⟨inner, false, ?_, fun _ => ⟨ends, some'⟩⟩
    rw [isInner, if_neg Bool.false_ne_true, append_nil]

theorem length_render (absolute : Bool) (names : List Bytes) :
    (render absolute names).length =
      if absolute then if names = [] then 1 else (joined names).length
      else (joined names).length - 1 := by
  unfold render
  cases absolute with
  | true =>
    rw [if_pos rfl, if_pos rfl]
    split <;> rfl
  | false =>
    rw [if_neg Bool.false_ne_true, if_neg Bool.false_ne_true, length_drop]

theorem length_ending {slash : Bool}
    (frame : tokenize sep s = (if isAbsolutePath s then [[]] else []) ++
      tokens ++ (if slash then [[]] else []))
    (ends : slash = false → tokens.getLast? ≠ some [] ∧ tokens ≠ [])
    {names : List Bytes} (some' : names ≠ []) :
    (ending names (tokenize sep s)).length = slash.toNat := by
  unfold ending
  cases slash with
  | true =>
    rw [frame, if_pos rfl, getLast?_concat, if_pos ⟨rfl, some'⟩]
    rfl
  | false =>
    rcases ends rfl with ⟨notEmpty, tokensSome⟩
    rw [frame, if_neg Bool.false_ne_true, append_nil, getLast?_append_of_ne_nil _ tokensSome,
      if_neg fun both => notEmpty both.1]
    rfl

theorem eq_nil_of_cost (low : (tokens.map (·.length + 1)).sum ≤ 1) :
    tokens = [] ∨ tokens = [[]] := by
  cases tokens with
  | nil => exact .inl rfl
  | cons token tokens =>
    rw [map_cons, sum_cons] at low
    have empty : token = [] := length_eq_zero_iff.mp (by omega)
    cases tokens with
    | nil => exact .inr (by rw [empty])
    | cons other tokens =>
      rw [map_cons, sum_cons] at low
      omega

theorem weight_frame (absolute slash : Bool) (tokens : List Bytes) :
    (((if absolute then [[]] else []) ++ tokens ++
      (if slash then [[]] else [])).map fun token : Bytes =>
        token.length + 1).sum =
        absolute.toNat + (tokens.map (·.length + 1)).sum + slash.toNat := by
  rw [map_append, map_append, sum_append, sum_append]
  cases absolute <;> cases slash <;> rfl

/-- A path that resolving does not make shorter is normal already. -/
theorem normal_of_length (nulFree : NulFree s) (some' : s ≠ [])
    (same : (resolvePath s).length = s.length) :
    ∃ names, Normal s names := by
  rcases tokenize_frame s with ⟨tokens, slash, frame, ends⟩
  have free : ∀ token ∈ tokens, sep ∉ token := by
    intro token member
    apply not_mem_tokenize (s := s)
    rw [frame]
    exact mem_append_left _ (mem_append_right _ member)
  have isPlaces : places s = follow [] (tokens.map segment) := by
    unfold places
    rw [frame, follow_frame]
  have costs := length_tokenize (d := sep) s
  rw [frame, weight_frame] at costs
  have resolved := congrArg List.length (resolvePath_eq nulFree some')
  rw [same, length_append, length_render] at resolved
  have long : 0 < s.length := length_pos_iff.mpr some'
  have areNames : ∀ token ∈ tokens, Name token := by
    by_cases empty : places s = []
    · have none' : ending (places s) (tokenize sep s) = [] := if_neg fun both => both.2 empty
      rw [none', empty, length_nil] at resolved
      cases absolute : isAbsolutePath s with
      | false =>
        rw [absolute, if_neg Bool.false_ne_true] at resolved
        have short : s.length = 0 := resolved
        omega
      | true =>
        rw [absolute, if_pos rfl, if_pos rfl] at resolved
        rw [absolute, Bool.toNat_true] at costs
        have low : (tokens.map fun token : Bytes =>
            token.length + 1).sum ≤ 1 := by omega
        rcases eq_nil_of_cost low with none' | one
        · rw [none']
          exact fun _ member => absurd member not_mem_nil
        · cases slash with
          | true =>
            rw [one, map_singleton, sum_singleton, Bool.toNat_true] at costs
            omega
          | false =>
            rw [one] at ends
            exact absurd rfl (ends rfl).1
    · rw [length_ending frame ends empty] at resolved
      apply names_of_length free
      rw [← isPlaces]
      have some'' := length_pos_iff.mpr (joined_ne_nil empty)
      cases absolute : isAbsolutePath s with
      | false =>
        rw [absolute, if_neg Bool.false_ne_true] at resolved
        rw [absolute, Bool.toNat_false] at costs
        omega
      | true =>
        rw [absolute, if_pos rfl, if_neg empty] at resolved
        rw [absolute, Bool.toNat_true] at costs
        omega
  refine ⟨tokens, areNames, ?_⟩
  cases slash with
  | false =>
    rw [frame]
    exact .inl (append_nil _)
  | true =>
    rw [frame]
    exact .inr rfl

end SystemFile

end Coast
