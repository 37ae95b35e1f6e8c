import Coast.Base.Bytes
import Coast.Library.Paths

/-!
# Resolving a path

`ResolvePath` removes the empty segments, `.` and `..` of a path: it walks
through the directories and writes down where it gets to.
-/

namespace Coast

open Paths

def tokenize (delimiter : Byte) : Bytes → List Bytes
  | [] => [[]]
  | c :: s =>
    if c = delimiter then [] :: tokenize delimiter s
    else
      match tokenize delimiter s with
      | [] => [[c]]
      | token :: tokens => (c :: token) :: tokens

def stringTokens (delimiter : Byte) (s : Bytes) : List Bytes :=
  if cstr s = [] then [] else tokenize delimiter (cstr s)

def strRChr (c : Byte) : Bytes → Option Nat
  | [] => none
  | b :: s =>
    match strRChr c s with
    | some i => some (i + 1)
    | none => if b = c then some 0 else none

namespace SystemFile

def sep : Byte := ch '/'

def isAbsolutePath (name : Bytes) : Bool := name.head? = some sep

/-- One turn of the loop of `ResolvePath`; `boTok` says that there are more
tokens. -/
def resolveToken (newPath token : Bytes) (boTok : Bool) : Bytes :=
  if token = lit "." then newPath
  else if token = lit ".." then
    match strRChr sep newPath with
    | some 0 => newPath.take 1
    | some idx => newPath.take idx
    | none => []
  else if token = [] then
    if !boTok && newPath ≠ [] && newPath.getLast? ≠ some sep then
      newPath ++ [sep]
    else newPath
  else
    (if newPath ≠ [] && newPath.getLast? ≠ some sep then newPath ++ [sep]
    else newPath) ++ token

def resolveTokens (newPath : Bytes) : List Bytes → Bytes
  | [] => newPath
  | token :: tokens =>
    resolveTokens (resolveToken newPath token (tokens ≠ [])) tokens

def resolvePath (path : Bytes) : Bytes :=
  resolveTokens (if isAbsolutePath path then [sep] else []) (stringTokens sep path)

end SystemFile

/-!
## The walk that a path describes

The text that `ResolvePath` makes lists the directories from the top to where
the walk along the segments of the path leads.
-/

open List

section

variable {d : Byte}

theorem tokenize_ne_nil (d : Byte) (s : Bytes) : tokenize d s ≠ [] := by
  induction s with
  | nil => exact cons_ne_nil [] []
  | cons c s ih =>
    unfold tokenize
    split
    · exact cons_ne_nil [] _
    · cases tokenize d s <;> exact cons_ne_nil _ _

theorem tokenize_delimiter (s : Bytes) : tokenize d (d :: s) = [] :: tokenize d s := if_pos rfl

theorem tokenize_char {c : Byte} (other : c ≠ d) {s token : Bytes}
    {tokens : List Bytes} (rest : tokenize d s = token :: tokens) :
    tokenize d (c :: s) = (c :: token) :: tokens := by
  unfold tokenize
  rw [if_neg other, rest]

theorem tokenize_append (first second : Bytes) :
    tokenize d (first ++ d :: second) = tokenize d first ++ tokenize d second := by
  induction first with
  | nil => exact tokenize_delimiter second
  | cons c first ih =>
    by_cases same : c = d
    · rw [same, cons_append, tokenize_delimiter, tokenize_delimiter, ih]
      rfl
    · rcases exists_cons_of_ne_nil (tokenize_ne_nil d first) with ⟨token, tokens, rest⟩
      rw [rest] at ih
      rw [cons_append, tokenize_char same rest, tokenize_char same ih]
      rfl

theorem tokenize_glue (first second : Bytes) :
    ∃ before last token after, tokenize d first = before ++ [last] ∧
      tokenize d second = token :: after ∧
      tokenize d (first ++ second) = before ++ (last ++ token) :: after := by
  induction first with
  | nil =>
    rcases exists_cons_of_ne_nil (tokenize_ne_nil d second) with ⟨token, after, rest⟩
    exact ⟨[], [], token, after, rfl, rest, rest⟩
  | cons c first ih =>
    rcases ih with ⟨before, last, token, after, isFirst, isSecond, both⟩
    by_cases same : c = d
    · refine ⟨[] :: before, last, token, after, ?_, isSecond, ?_⟩
      · rw [same, tokenize_delimiter, isFirst]
        rfl
      · rw [same, cons_append, tokenize_delimiter, both]
        rfl
    · cases before with
      | nil =>
        exact ⟨[], c :: last, token, after, tokenize_char same isFirst,
          isSecond, tokenize_char same both⟩
      | cons first' before =>
        exact ⟨(c :: first') :: before, last, token, after, tokenize_char same isFirst, isSecond,
          tokenize_char same both⟩

theorem not_mem_tokenize {s token : Bytes} (member : token ∈ tokenize d s) : d ∉ token := by
  induction s generalizing token with
  | nil =>
    rw [mem_singleton.mp member]
    exact not_mem_nil
  | cons c s ih =>
    by_cases same : c = d
    · rw [same, tokenize_delimiter] at member
      rcases mem_cons.mp member with empty | later
      · rw [empty]
        exact not_mem_nil
      · exact ih later
    · rcases exists_cons_of_ne_nil (tokenize_ne_nil d s) with ⟨first, rest, tokens⟩
      rw [tokenize_char same tokens] at member
      rcases mem_cons.mp member with head | later
      · rw [head]
        intro inToken
        rcases mem_cons.mp inToken with same' | inFirst
        · exact same same'.symm
        · apply ih _ inFirst
          rw [tokens]
          exact mem_cons_self
      · apply ih
        rw [tokens]
        exact mem_cons_of_mem first later

theorem tokenize_single {token : Bytes} (free : d ∉ token) : tokenize d token = [token] := by
  induction token with
  | nil => rfl
  | cons c token ih =>
    rw [mem_cons, not_or] at free
    exact tokenize_char (Ne.symm free.1) (ih free.2)

theorem length_tokenize (s : Bytes) : ((tokenize d s).map (·.length + 1)).sum = s.length + 1 := by
  induction s with
  | nil => rfl
  | cons c s ih =>
    by_cases same : c = d
    · rw [same, tokenize_delimiter, map_cons, sum_cons, ih, length_nil, length_cons]
      omega
    · rcases exists_cons_of_ne_nil (tokenize_ne_nil d s) with ⟨token, tokens, rest⟩
      rw [rest, map_cons, sum_cons] at ih
      rw [tokenize_char same rest, map_cons, sum_cons, length_cons, length_cons]
      omega

theorem tokenize_last {s : Bytes} (nonempty : s ≠ []) (notEnd : s.getLast? ≠ some d) :
    ∃ before last, tokenize d s = before ++ [last] ∧ last ≠ [] := by
  rcases eq_nil_or_concat s with empty | ⟨front, c, same⟩
  · exact absurd empty nonempty
  · rw [same, concat_eq_append] at notEnd ⊢
    rw [getLast?_concat] at notEnd
    rcases tokenize_glue (d := d) front [c] with ⟨before, last, token, after, _, single, both⟩
    have other : d ∉ [c] := by
      rw [mem_singleton]
      exact fun equal => notEnd (congrArg some equal.symm)
    rw [tokenize_single other] at single
    cases single
    refine ⟨before, last ++ [c], both, ?_⟩
    exact append_ne_nil_of_right_ne_nil _ (cons_ne_nil c [])

end

theorem strRChr_eq_none {c : Byte} {s : Bytes} (free : c ∉ s) : strRChr c s = none := by
  induction s with
  | nil => rfl
  | cons b s ih =>
    rw [mem_cons, not_or] at free
    unfold strRChr
    rw [ih free.2]
    exact if_neg (Ne.symm free.1)

theorem strRChr_append {c : Byte} (first : Bytes) {second : Bytes} (free : c ∉ second) :
    strRChr c (first ++ c :: second) = some first.length := by
  induction first with
  | nil =>
    rw [nil_append, strRChr, strRChr_eq_none free]
    exact if_pos rfl
  | cons b first ih =>
    rw [cons_append, strRChr, ih]
    rfl

namespace SystemFile

def segment (token : Bytes) : Move Bytes :=
  if token = lit "." then .stay
  else if token = lit ".." then .up
  else if token = [] then .stay
  else .down token

/-- A segment that is neither empty nor a dot or two. -/
structure Name (name : Bytes) : Prop where
  nonempty : name ≠ []
  free : sep ∉ name
  notDot : name ≠ lit "."
  notDotDot : name ≠ lit ".."

theorem segment_name {name : Bytes} (isName : Name name) : segment name = .down name := by
  unfold segment
  rw [if_neg isName.notDot, if_neg isName.notDotDot, if_neg isName.nonempty]

theorem segment_down {token name : Bytes} (free : sep ∉ token)
    (down : segment token = .down name) : name = token ∧ Name token := by
  unfold segment at down
  split at down
  · cases down
  · split at down
    · cases down
    · split at down
      · cases down
      · rename_i notDot notDotDot nonempty
        cases down
        exact ⟨rfl, nonempty, free, notDot, notDotDot⟩

def joined (names : List Bytes) : Bytes := names.flatMap (sep :: ·)

def render (absolute : Bool) (names : List Bytes) : Bytes :=
  if absolute then if names = [] then [sep] else joined names
  else (joined names).drop 1

theorem joined_concat (names : List Bytes) (name : Bytes) :
    joined (names ++ [name]) = joined names ++ sep :: name := by
  unfold joined
  rw [flatMap_append, flatMap_singleton]

variable {names : List Bytes}

theorem joined_ne_nil (some' : names ≠ []) : joined names ≠ [] := by
  cases names with
  | nil => exact absurd rfl some'
  | cons name names => exact cons_ne_nil _ _

theorem render_concat (absolute : Bool) (names : List Bytes) (name : Bytes) :
    render absolute (names ++ [name]) = if absolute then joined names ++ sep :: name
      else if names = [] then name
      else render absolute names ++ sep :: name := by
  have nonempty : names ++ [name] ≠ [] :=
    append_ne_nil_of_right_ne_nil _ (cons_ne_nil name [])
  cases absolute with
  | true =>
    simp only [render, if_true, nonempty, if_false, joined_concat]
  | false =>
    simp only [render, Bool.false_eq_true, if_false, joined_concat]
    split
    · rename_i empty
      rw [empty]
      rfl
    · rename_i some'
      rcases exists_cons_of_ne_nil (joined_ne_nil some') with ⟨c, rest, isCons⟩
      rw [isCons]
      rfl

theorem render_getLast (absolute : Bool)
    (areNames : ∀ name ∈ names, Name name) (some' : names ≠ []) :
    render absolute names ≠ [] ∧ (render absolute names).getLast? ≠ some sep := by
  rcases eq_nil_or_concat names with empty | ⟨front, name, same⟩
  · exact absurd empty some'
  · rw [concat_eq_append] at same
    have isName := areNames name (by
      rw [same]
      exact mem_append_right _ (mem_singleton_self name))
    rcases eq_nil_or_concat name with empty | ⟨start, c, isConcat⟩
    · exact absurd empty isName.nonempty
    · rw [concat_eq_append] at isConcat
      have other : c ≠ sep := by
        intro isSep
        apply isName.free
        rw [isConcat, isSep]
        exact mem_append_right _ (mem_singleton_self sep)
      have shape : ∃ text, render absolute names = text ++ [c] := by
        rw [same, render_concat, isConcat]
        split
        · exact ⟨joined front ++ sep :: start, by
            rw [append_assoc, cons_append]⟩
        · split
          · exact ⟨start, rfl⟩
          · exact ⟨render absolute front ++ sep :: start, by
              rw [append_assoc, cons_append]⟩
      rcases shape with ⟨text, isText⟩
      rw [isText, getLast?_concat]
      exact ⟨append_ne_nil_of_right_ne_nil _ (cons_ne_nil c []),
        fun equal => other (Option.some.inj equal)⟩

section

variable {absolute : Bool} {names : List Bytes}

theorem render_append (areNames : ∀ name ∈ names, Name name) (token : Bytes) :
    (if render absolute names ≠ [] && (render absolute names).getLast? ≠ some sep then
      render absolute names ++ [sep] else render absolute names) ++ token =
      render absolute (names ++ [token]) := by
  rw [render_concat]
  by_cases empty : names = []
  · rw [empty]
    cases absolute <;> rfl
  · rcases render_getLast absolute areNames empty with ⟨nonempty, notEnd⟩
    have goesOn : (render absolute names ≠ [] &&
        (render absolute names).getLast? ≠ some sep) = true := by
      simp only [ne_eq, nonempty, notEnd, not_false_eq_true, decide_true, Bool.and_self]
    rw [if_pos goesOn, append_assoc]
    cases absolute with
    | true => simp only [render, empty, if_true, if_false, singleton_append]
    | false => simp only [Bool.false_eq_true, empty, if_false, singleton_append]

theorem cut_append (front : Bytes) {name : Bytes} (free : sep ∉ name) :
    (match strRChr sep (front ++ sep :: name) with
      | some 0 => (front ++ sep :: name).take 1
      | some idx => (front ++ sep :: name).take idx
      | none => []) = if front = [] then [sep] else front := by
  rw [strRChr_append front free]
  cases front with
  | nil => rfl
  | cons c front =>
    rw [if_neg (cons_ne_nil c front)]
    exact take_left

variable (areNames : ∀ name ∈ names, Name name)
include areNames

theorem render_up :
    (match strRChr sep (render absolute names) with
      | some 0 => (render absolute names).take 1
      | some idx => (render absolute names).take idx
      | none => []) = render absolute names.dropLast := by
  rcases eq_nil_or_concat names with empty | ⟨front, name, same⟩
  · rw [empty]
    cases absolute <;> rfl
  · rw [concat_eq_append] at same
    have isName := areNames name (by
      rw [same]
      exact mem_append_right _ (mem_singleton_self name))
    have areFront : ∀ name ∈ front, Name name := by
      intro other member
      apply areNames
      rw [same]
      exact mem_append_left _ member
    rw [same, dropLast_concat, render_concat]
    cases absolute with
    | true =>
      rw [if_pos rfl, cut_append _ isName.free]
      cases front with
      | nil => rfl
      | cons first rest =>
        rw [if_neg (joined_ne_nil (cons_ne_nil first rest))]
        rfl
    | false =>
      rw [if_neg Bool.false_ne_true]
      by_cases empty : front = []
      · rw [if_pos empty, strRChr_eq_none isName.free, empty]
        rfl
      · have nonempty := (render_getLast false areFront empty).1
        rw [if_neg empty, cut_append _ isName.free, if_neg nonempty]

theorem resolveToken_render {token : Bytes} {boTok : Bool} (goesOn : token ≠ [] ∨ boTok = true) :
    resolveToken (render absolute names) token boTok =
      render absolute (follow names [segment token]) := by
  unfold resolveToken segment
  split
  · rfl
  · split
    · exact render_up areNames
    · split
      · rename_i empty
        have more := goesOn.resolve_left (fun some' => some' empty)
        rw [more]
        rfl
      · exact render_append areNames token

theorem follow_areNames {tokens : List Bytes} (free : ∀ token ∈ tokens, sep ∉ token) :
    ∀ name ∈ follow names (tokens.map segment), Name name := by
  induction tokens generalizing names with
  | nil => exact areNames
  | cons token tokens ih =>
    have later : ∀ other ∈ tokens, sep ∉ other := (forall_mem_cons.mp free).2
    rw [map_cons]
    cases moves : segment token with
    | stay => exact ih areNames later
    | up =>
      apply ih _ later
      exact fun name member =>
        areNames name (dropLast_subset names member)
    | down name =>
      rcases segment_down (free token mem_cons_self) moves with ⟨_, isName⟩
      apply ih _ later
      intro other member
      rcases mem_append.mp member with before | last
      · exact areNames other before
      · rw [mem_singleton.mp last]
        rename_i same
        rw [same]
        exact isName

end

def places (s : Bytes) : List Bytes := follow [] ((tokenize sep s).map segment)

def ending (names : List Bytes) (tokens : List Bytes) : Bytes :=
  if tokens.getLast? = some [] ∧ names ≠ [] then [sep] else []

theorem resolveToken_ending {absolute : Bool} (areNames : ∀ name ∈ names, Name name) :
    resolveToken (render absolute names) [] false = render absolute names ++ ending names [[]] := by
  have notDot : ([] : Bytes) ≠ lit "." := by decide
  have notDotDot : ([] : Bytes) ≠ lit ".." := by decide
  unfold resolveToken ending
  rw [if_neg notDot, if_neg notDotDot, if_pos rfl]
  by_cases empty : names = []
  · rw [empty]
    cases absolute <;> rfl
  · rcases render_getLast absolute areNames empty with ⟨nonempty, notEnd⟩
    simp only [Bool.not_false, Bool.true_and, ne_eq, nonempty, not_false_eq_true, decide_true,
      notEnd, if_true, getLast?_singleton, empty, and_self]

theorem ending_single {token : Bytes} (some' : token ≠ []) : ending names [token] = [] := by
  apply if_neg
  rw [getLast?_singleton]
  exact fun both => some' (Option.some.inj both.1)

theorem ending_cons {tokens : List Bytes} {token : Bytes} (some' : tokens ≠ []) :
    ending names (token :: tokens) = ending names tokens := by
  unfold ending
  rw [getLast?_cons_of_ne_nil some']

theorem resolveTokens_render {absolute : Bool} (areNames : ∀ name ∈ names, Name name)
    {tokens : List Bytes} (some' : tokens ≠ []) (free : ∀ token ∈ tokens, sep ∉ token) :
    resolveTokens (render absolute names) tokens =
      render absolute (follow names (tokens.map segment)) ++
        ending (follow names (tokens.map segment)) tokens := by
  induction tokens generalizing names with
  | nil => exact absurd rfl some'
  | cons token tokens ih =>
    have first := free token mem_cons_self
    have later : ∀ other ∈ tokens, sep ∉ other := (forall_mem_cons.mp free).2
    have split : follow names ((token :: tokens).map segment) =
        follow (follow names [segment token]) (tokens.map segment) :=
      follow_append names [segment token] (tokens.map segment)
    have areNow : ∀ name ∈ follow names [segment token], Name name := by
      have free' : ∀ other ∈ [token], sep ∉ other := by
        intro other member
        rwa [mem_singleton.mp member]
      exact follow_areNames areNames free'
    rw [split, resolveTokens]
    by_cases more : tokens = []
    · rw [more]
      by_cases empty : token = []
      · rw [empty]
        exact resolveToken_ending areNames
      · rw [resolveToken_render areNames (.inl empty), ending_single empty, append_nil]
        rfl
    · rw [resolveToken_render areNames (.inr (decide_eq_true more)),
        ih areNow more later, ending_cons more]

/-- What is resolved is the places of the path, with its slashes. -/
theorem resolvePath_eq {s : Bytes} (nulFree : NulFree s) (some' : s ≠ []) :
    resolvePath s = render (isAbsolutePath s) (places s) ++ ending (places s) (tokenize sep s) := by
  have tokens : stringTokens sep s = tokenize sep s := by
    unfold stringTokens
    rw [cstr_of_nulFree nulFree, if_neg some']
  have start : (if isAbsolutePath s then [sep] else []) = render (isAbsolutePath s) [] := by
    cases isAbsolutePath s <;> rfl
  unfold resolvePath
  rw [tokens, start]
  exact resolveTokens_render (fun _ member => absurd member not_mem_nil)
    (tokenize_ne_nil sep s) fun _ member => not_mem_tokenize member

end SystemFile

end Coast
