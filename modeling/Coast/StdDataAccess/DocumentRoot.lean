import Coast.StdDataAccess.HTTPProcessorWithChecks
import Coast.StdDataAccess.PathsBehindRoot

/-!
# File names for request targets

The mapper puts the request target behind the document root and asks the file
system what is there.
-/

namespace Coast

open SystemFile List

/-- What the file system tells about a path. -/
structure System where
  rootDir : Bytes
  isRegularFile : Bytes → Bool
  isDirectory : Bytes → Bool

/-- What is answered instead of a file. -/
structure HTTPError where
  code : Nat
  response : Bytes
  location : Option Bytes
  deriving DecidableEq, Repr

/-- What `DoFinalGetAny` gives for `FileName`. -/
structure FileName where
  result : Bool
  val : Bytes
  error : Option HTTPError
  deriving DecidableEq, Repr

namespace URI2FileNameMapper

variable (system : System)

def trimUriArguments (filename : Bytes) : Bytes := filename.takeWhile (· ≠ ch '?')

/-- The document root, below the root directory unless it is absolute. -/
def rootPath (documentRoot : Bytes) : Bytes :=
  if isAbsolutePath documentRoot then documentRoot
  else
    let path := system.rootDir
    if documentRoot = [] then path
    else if path.getLast? ≠ some sep && documentRoot.head? ≠ some sep then
      path ++ [sep] ++ documentRoot
    else if path.getLast? = some sep && documentRoot.head? = some sep then
      path.dropLast ++ documentRoot
    else path ++ documentRoot

def pathFor (documentRoot uri : Bytes) : Bytes :=
  let path := rootPath system documentRoot
  if path.getLast? = some sep ∧ uri.head? = some sep then path.dropLast
  else path

def resolveInvalidFile (value : Bytes) : FileName :=
  ⟨false, value, some ⟨404, lit "Not Found", none⟩⟩

/-- The file for a target; a directory is redirected or its index is taken. -/
def doFinalGetAny (directoryIndex documentRoot requestURI : Bytes) : FileName :=
  let uri := trimUriArguments requestURI
  let value := pathFor system documentRoot uri ++ uri
  if system.isRegularFile value then ⟨true, value, none⟩
  else if system.isDirectory value then
    if value.getLast? ≠ some sep || uri = [] then
      if uri = [] then
        ⟨false, value, some ⟨400, lit "Bad Request", none⟩⟩
      else
        ⟨false, value ++ [sep], some ⟨301, lit "Permanently moved", some (value ++ [sep])⟩⟩
    else ⟨true, value ++ directoryIndex, none⟩
  else resolveInvalidFile value

def suffix (directoryIndex documentRoot uri : Bytes) : Bytes :=
  let value := pathFor system documentRoot uri ++ uri
  if system.isRegularFile value then []
  else if system.isDirectory value && uri ≠ [] then
    if value.getLast? ≠ some sep then [sep] else directoryIndex
  else []

variable {system}

theorem val_doFinalGetAny (directoryIndex documentRoot requestURI : Bytes) :
    (doFinalGetAny system directoryIndex documentRoot requestURI).val =
      pathFor system documentRoot (trimUriArguments requestURI) ++ (trimUriArguments requestURI ++
          suffix system directoryIndex documentRoot (trimUriArguments requestURI)) := by
  unfold doFinalGetAny suffix
  dsimp only
  rw [← append_assoc]
  split
  · exact (append_nil _).symm
  · split
    · rename_i isDirectory
      rw [isDirectory, Bool.true_and]
      split
      · rename_i relocated
        split
        · rename_i empty
          rw [if_neg (by simpa using empty)]
          exact (append_nil _).symm
        · rename_i some'
          rw [Bool.or_eq_true, decide_eq_true_eq, decide_eq_true_eq] at relocated
          rw [if_pos (decide_eq_true some'), if_pos (relocated.resolve_right some')]
      · rename_i indexed
        rw [Bool.or_eq_true, decide_eq_true_eq, decide_eq_true_eq, not_or] at indexed
        rw [if_pos (decide_eq_true indexed.2), if_neg indexed.1]
    · rename_i neither
      rw [Bool.not_eq_true] at neither
      rw [neither, Bool.false_and, if_neg Bool.false_ne_true]
      exact (append_nil _).symm

end URI2FileNameMapper

/-!
## Confinement to the document root

Which of the accepted request targets lead to a file below the document root.
-/

open URI2FileNameMapper HTTPProcessorWithChecks

theorem cstr_cons {c : Byte} (some' : c ≠ 0) (s : Bytes) : cstr (c :: s) = c :: cstr s := by
  unfold cstr
  rw [takeWhile_cons, if_pos (decide_eq_true some')]

theorem cstr_append_of_nul {s : Bytes} (nul : ¬ NulFree s) (rest : Bytes) :
    cstr (s ++ rest) = cstr s := by
  induction s with
  | nil => exact absurd not_mem_nil nul
  | cons c s ih =>
    by_cases zero : c = 0
    · rw [zero]
      rfl
    · have later : ¬ NulFree s := by
        intro free
        apply nul
        intro member
        rcases mem_cons.mp member with same | inRest
        · exact zero same.symm
        · exact free inRest
      rw [cons_append, cstr_cons zero, cstr_cons zero, ih later]

theorem head_cstr (s : Bytes) : (cstr s).head? = some sep ↔ s.head? = some sep := by
  cases s with
  | nil => exact Iff.rfl
  | cons c s =>
    by_cases zero : c = 0
    · rw [zero]
      exact ⟨nofun, fun same => absurd (Option.some.inj same) (by decide)⟩
    · rw [cstr_cons zero]
      exact Iff.rfl

theorem resolvePath_cstr (s : Bytes) : resolvePath (cstr s) = resolvePath s := by
  have absolute : isAbsolutePath (cstr s) = isAbsolutePath s := decide_eq_decide.mpr (head_cstr s)
  unfold resolvePath stringTokens
  rw [absolute, cstr_of_nulFree (nulFree_cstr s)]

theorem below_of_cstr {root file : Bytes} (same : cstr file = cstr root) : Below root file := by
  unfold Below
  rw [← resolvePath_cstr file, same, resolvePath_cstr]
  unfold withoutSlash
  split
  · rename_i ends
    rw [dropLast_append_getLast? sep ends]
    exact .inr (prefix_refl _)
  · exact .inl rfl

theorem suffix_cases (system : System) (directoryIndex root uri : Bytes) :
    suffix system directoryIndex root uri = [] ∨
      uri ≠ [] ∧ (suffix system directoryIndex root uri = [sep] ∨
        suffix system directoryIndex root uri = directoryIndex) := by
  unfold suffix
  dsimp only
  split
  · exact .inl rfl
  · split
    · rename_i both
      rw [Bool.and_eq_true, decide_eq_true_eq] at both
      right
      refine ⟨both.2, ?_⟩
      split
      · exact .inl rfl
      · exact .inr rfl
    · exact .inl rfl

def textBehind (system : System) (root requestURI : Bytes) : Bytes :=
  cstr (trimUriArguments requestURI ++ suffix system (lit "index.html") root
    (trimUriArguments requestURI))

def fileNameFor (system : System) (root requestURI : Bytes) : Bytes :=
  (doFinalGetAny system (lit "index.html") root requestURI).val

section

variable (system : System)
include system

theorem pathFor_eq_rootFor {root : Bytes}
    (absolute : isAbsolutePath root = true) (requestURI : Bytes) :
    pathFor system root (trimUriArguments requestURI) =
      rootFor root (textBehind system root requestURI) := by
  have heads : (textBehind system root requestURI).head? = some sep ↔
      (trimUriArguments requestURI).head? = some sep := by
    unfold textBehind
    rw [head_cstr]
    rcases suffix_cases system (lit "index.html") root
      (trimUriArguments requestURI) with none' | ⟨some', _⟩
    · rw [none', append_nil]
    · rw [head?_append_of_ne_nil _ some']
  unfold pathFor rootFor rootPath
  rw [if_pos absolute]
  simp only [heads]

theorem cstr_fileNameFor {root : Bytes}
    (absolute : Absolute root) (requestURI : Bytes) :
    cstr (fileNameFor system root requestURI) =
      rootFor root (textBehind system root requestURI) ++ textBehind system root requestURI := by
  have free : NulFree (rootFor root (textBehind system root requestURI)) := by
    unfold rootFor
    split
    · exact fun member =>
        absolute.nulFree (dropLast_subset root member)
    · exact absolute.nulFree
  unfold fileNameFor
  rw [val_doFinalGetAny, pathFor_eq_rootFor system absolute.absolute, cstr_append_of_nulFree free]
  rfl

theorem cstr_fileNameFor_of_nul {root : Bytes}
    (absolute : isAbsolutePath root = true) (nul : ¬ NulFree root) (requestURI : Bytes) :
    cstr (fileNameFor system root requestURI) = cstr root := by
  unfold fileNameFor
  rw [val_doFinalGetAny, pathFor_eq_rootFor system absolute]
  unfold rootFor
  split
  · rename_i both
    rcases getLast?_eq_some_iff.mp both.1 with ⟨front, isRoot⟩
    have inFront : ¬ NulFree front := by
      intro free
      apply nul
      rw [isRoot]
      intro member
      rcases mem_append.mp member with before | last
      · exact free before
      · exact absurd (mem_singleton.mp last) (by decide)
    rw [isRoot, dropLast_concat, cstr_append_of_nul inFront, cstr_append_of_nul inFront]
  · exact cstr_append_of_nul nul _

theorem below_fileNameFor_iff {root : Bytes}
    (absolute : isAbsolutePath root = true) (requestURI : Bytes) :
    Below root (fileNameFor system root requestURI) ↔
      (NulFree root → Stays root (textBehind system root requestURI)) := by
  by_cases nulFree : NulFree root
  · have isAbsolute : Absolute root := ⟨nulFree, absolute⟩
    unfold Below
    rw [← resolvePath_cstr (fileNameFor system root requestURI), cstr_fileNameFor system isAbsolute]
    exact (below_iff_stays isAbsolute (nulFree_cstr _)).trans
      ⟨fun stays _ => stays, fun stays => stays nulFree⟩
  · have same := cstr_fileNameFor_of_nul system absolute nulFree requestURI
    exact ⟨fun _ free => absurd free nulFree, fun _ => below_of_cstr same⟩

end

/-! ## Accepted targets -/

/-- The checks saw all that the mapper puts behind the root. -/
def Checked (urlExhaustiveDecode : Bool) (requestURI : Bytes) : Prop :=
  (RequestURISplitHelper.split requestURI).fArgSep ≠ lit ";" ∧
    ch '?' ∉ decodedPath urlExhaustiveDecode requestURI

instance (urlExhaustiveDecode : Bool) (requestURI : Bytes) :
    Decidable (Checked urlExhaustiveDecode requestURI) :=
  inferInstanceAs (Decidable (_ ∧ _))

theorem split_cases (requestURI : Bytes) :
    ((RequestURISplitHelper.split requestURI).fArgSep = [] ∧
      (RequestURISplitHelper.split requestURI).fArgs = []) ∨
    ∃ c, (RequestURISplitHelper.split requestURI).fArgSep = [c] ∧
      (c = 0 ∨ c = ch '?' ∨ c = ch ';') := by
  unfold RequestURISplitHelper.split
  split
  · exact .inl ⟨rfl, rfl⟩
  · rename_i argDelimPos found
    split
    · rcases firstCharOf_eq_some found with ⟨c, rest, isDrop, isDelimiter⟩
      right
      refine ⟨c, ?_, ?_⟩
      · dsimp only
        rw [isDrop]
        rfl
      · have set' : cstr (lit "?;") = [ch '?', ch ';'] := by decide
        rw [set', mem_cons, mem_singleton] at isDelimiter
        exact isDelimiter
    · exact .inl ⟨rfl, rfl⟩

/-- The mapper cuts a target that was checked behind its path, where the
arguments begin or where a NUL follows. -/
theorem trimUriArguments_merged {path argSep args : Bytes} (noMark : ch '?' ∉ path)
    (separator : (argSep = [] ∧ args = []) ∨ argSep = [0] ∨ argSep = [ch '?']) :
    trimUriArguments (path ++ argSep ++ args) = path ∨
      ∃ rest, trimUriArguments (path ++ argSep ++ args) = path ++ 0 :: rest := by
  have passes : ∀ c ∈ path, decide (c ≠ ch '?') = true := by
    intro c member
    exact decide_eq_true fun same => noMark (same ▸ member)
  unfold trimUriArguments
  rw [append_assoc, takeWhile_append_of_pos passes]
  rcases separator with ⟨noSep, noArgs⟩ | nul | mark
  · rw [noSep, noArgs]
    exact .inl (append_nil path)
  · rw [nul]
    exact .inr ⟨_, rfl⟩
  · rw [mark]
    exact .inl (append_nil path)

theorem takesIn_append {root path rest : Bytes} (more : path = [] → rest = []) :
    TakesIn root (path ++ rest) ↔ TakesIn root path := by
  by_cases empty : path = []
  · rw [empty, more empty]
    exact Iff.rfl
  · unfold TakesIn
    rw [head?_append_of_ne_nil _ empty, append_eq_nil_iff]
    exact or_congr_left ⟨fun both => both.1, fun nothing => absurd nothing empty⟩

theorem stays_textBehind_iff {root path requestURI : Bytes} (system : System)
    (rootSome : root ≠ []) (nulFree : NulFree path) (plain : Plain path)
    (trimmed : trimUriArguments requestURI = path ∨
      ∃ rest, trimUriArguments requestURI = path ++ 0 :: rest) :
    Stays root (textBehind system root requestURI) ↔ TakesIn root path := by
  unfold textBehind
  rcases trimmed with same | ⟨rest, behindNul⟩
  · rw [same, cstr_append_of_nulFree nulFree]
    rcases suffix_cases system (lit "index.html") root path with none' | ⟨some', slash | index⟩
    · rw [none']
      change Stays root (path ++ []) ↔ _
      rw [append_nil]
      exact stays_iff_takesIn rootSome plain
    · rw [slash]
      change Stays root (path ++ [sep]) ↔ _
      rw [stays_iff_takesIn rootSome plain.slash]
      exact takesIn_append fun empty => absurd empty some'
    · rw [index, cstr_of_nulFree (by decide)]
      rw [stays_iff_takesIn rootSome (plain.append (by decide) (by decide))]
      exact takesIn_append fun empty => absurd empty some'
  · rw [behindNul, append_assoc, cstr_append_of_nulFree nulFree]
    change Stays root (path ++ []) ↔ _
    rw [append_nil]
    exact stays_iff_takesIn rootSome plain

/-- The file of an accepted target is the document root or below it exactly
when the root takes in the path, where the checks saw all that is put behind
the root, and when the text behind the root leads back to it elsewhere. -/
theorem doPrepareContextRequest_below_iff (system : System)
    (urlExhaustiveDecode : Bool) (root requestURI : Bytes) (absolute : isAbsolutePath root = true)
    (accepted : (doPrepareContextRequest
      { urlExhaustiveDecode := urlExhaustiveDecode }
      requestURI).accepted = true) :
    Below root (fileNameFor system root
        (doPrepareContextRequest
          { urlExhaustiveDecode := urlExhaustiveDecode }
          requestURI).requestURI) ↔
      (NulFree root →
        if Checked urlExhaustiveDecode requestURI then
          TakesIn root (decodedPath urlExhaustiveDecode requestURI)
        else
          Stays root (textBehind system root
            (decodedPath urlExhaustiveDecode requestURI ++
              (RequestURISplitHelper.split requestURI).fArgSep ++
              (RequestURISplitHelper.split requestURI).fArgs))) := by
  rcases doPrepareContextRequest_accepted accepted with ⟨nulFree, resolved, isMerged⟩
  rw [below_fileNameFor_iff system absolute, isMerged]
  apply imp_congr_right
  intro free
  split
  · rename_i checked
    have rootSome : root ≠ [] := Absolute.ne_nil ⟨free, absolute⟩
    apply stays_textBehind_iff system rootSome nulFree (plain_of_length nulFree resolved)
    apply trimUriArguments_merged checked.2
    rcases split_cases requestURI with nothing | ⟨c, isSep, isDelimiter⟩
    · exact .inl nothing
    · right
      rcases isDelimiter with nul | mark | semicolon
      · exact .inl (by rw [isSep, nul])
      · exact .inr (by rw [isSep, mark])
      · exact absurd (by rw [isSep, semicolon]; rfl) checked.1
  · exact Iff.rfl

private def noFiles : System := ⟨[], fun _ => false, fun _ => false⟩

theorem doPrepareContextRequest_below_iff_index :
    Below (lit "/var/www") (fileNameFor noFiles (lit "/var/www")
      (doPrepareContextRequest { urlExhaustiveDecode := false }
        (lit "/docs/a.html?x=1;y=../..")).requestURI) := by
  apply (doPrepareContextRequest_below_iff noFiles false (lit "/var/www")
    (lit "/docs/a.html?x=1;y=../..") (by decide) (by decide +kernel)).mpr
  intro _
  rw [if_pos (by decide +kernel)]
  decide +kernel

/-- The checks end at the first `;`, the mapper takes what is behind it too. -/
theorem not_doPrepareContextRequest_below :
    ¬ ∀ (system : System) (urlExhaustiveDecode : Bool)
      (root requestURI : Bytes), isAbsolutePath root = true →
      (doPrepareContextRequest { urlExhaustiveDecode := urlExhaustiveDecode }
        requestURI).accepted = true →
      Below root (fileNameFor system root
        (doPrepareContextRequest
          { urlExhaustiveDecode := urlExhaustiveDecode }
          requestURI).requestURI) := by
  intro confined
  have inside := confined noFiles false (lit "/var/www")
    (lit "/a;/../../../etc/passwd") (by decide) (by decide +kernel)
  have outside : resolvePath (fileNameFor noFiles (lit "/var/www")
      (doPrepareContextRequest { urlExhaustiveDecode := false }
        (lit "/a;/../../../etc/passwd")).requestURI) =
      lit "/etc/passwd" := by
    decide +kernel
  unfold Below at inside
  rw [outside] at inside
  revert inside
  decide +kernel

end Coast
