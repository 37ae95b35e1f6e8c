import Coast.Base.StringParts
import Coast.Regex.MatchRuns
import Coast.Regex.Search

/-!
# `Split` and `Subst`

Both search for a match behind the match before, and take the text in front
of it.
-/

namespace Coast

open List Option Nat

def startRegister (regs : List Register) (which : Nat) : Int :=
  ((regs.getD which (none, none)).1.map Nat.cast).getD (-1)

def endRegister (regs : List Register) (which : Nat) : Int :=
  ((regs.getD which (none, none)).2.map Nat.cast).getD (-1)

namespace RE

open Fuel RECompiler Regex

variable {α : Type}

def posOf (newpos : Int) : Int := (BitVec.ofInt 32 newpos).toInt

/-- The loop over the matches; `turn` is what it does with the position, the
start and the end of a match.  Below zero `MatchAt` does not match. -/
def searchLoop (find : Nat → Option SearchResult) (len : Nat)
    (turn : Int → Int → Int → α → α) (again : Bool) :
    Nat → Int → α → Option (Except MatchExit (Int × α))
  | 0, _, _ => none
  | rounds + 1, pos, a =>
    if pos < len then
      (find pos.toNat).bind fun
        | (.error exit, _) => some (.error exit)
        | (.ok false, _) => some (.ok (pos, a))
        | (.ok true, regs) =>
          let start := startRegister regs 0
          let newpos := endRegister regs 0
          let a := turn pos start newpos a
          let pos := posOf (if newpos = pos then newpos + 1 else newpos)
          if again then searchLoop find len turn again rounds pos a
          else some (.ok (pos, a))
    else some (.ok (pos, a))

def splitTurn (s : Bytes) (pos start newpos : Int) (res : List Bytes) : List Bytes :=
  if newpos = pos then res ++ [subStringFrom s pos (start + 1 - pos)]
  else res ++ [subStringFrom s pos (start - pos)]

/-- The texts between the matches, and the remainder unless it is empty. -/
def split (compiled : Compiled) (fMatchFlags : MatchFlags) (s : Bytes)
    (fuel : Nat) : Option (Except MatchExit (List Bytes)) :=
  (searchLoop (fun pos => containedIn compiled fMatchFlags s pos fuel)
    s.length (splitTurn s) true fuel 0 []).map fun result => do
      let (pos, res) ← result
      let remainder := subStringFrom s pos (-1)
      pure (if remainder.length ≠ 0 then res ++ [remainder] else res)

def substTurn (substituteIn substitution : Bytes) (pos start _newpos : Int) (ret : Bytes) : Bytes :=
  ret ++ subStringFrom substituteIn pos (start - pos) ++ substitution

/-- The matches are replaced, one after the other or only the first. -/
def subst (compiled : Compiled) (fMatchFlags : MatchFlags)
    (substituteIn substitution : Bytes) (replaceall : Bool) (fuel : Nat) :
    Option (Except MatchExit Bytes) :=
  (searchLoop (fun pos => containedIn compiled fMatchFlags substituteIn pos fuel)
    substituteIn.length (substTurn substituteIn substitution) replaceall fuel
    0 []).map fun result => do
      let (pos, ret) ← result
      pure (if pos < substituteIn.length then
        ret ++ subStringFrom substituteIn pos (-1) else ret)

def MatchesAt (re : RE) (i e : Nat) : Prop :=
  ∃ fuel after, re.matchNodes fuel 0 (-1) i (matchStart i) = some (.ok (some e), after)

def NoMatch (re : RE) (p q : Nat) : Prop := ∀ i, p ≤ i → i < q → ∀ e, ¬re.MatchesAt i e

/-- A match such that none starts before it. -/
structure Leftmost (re : RE) (p start stop : Nat) : Prop where
  behind : p ≤ start
  inside : start ≤ re.fSearch.length
  isMatch : re.MatchesAt start stop
  first : re.NoMatch p start

def nextPos (p stop : Nat) : Nat := if stop = p then p + 1 else stop

/-- The successive leftmost matches from a position on, of which each begins
its search in front of a character. -/
inductive Successive (re : RE) : Nat → List (Nat × Nat) → Prop where
  | outside {p : Nat} : re.fSearch.length ≤ p → Successive re p []
  | missed {p : Nat} : p < re.fSearch.length →
      re.NoMatch p (re.fSearch.length + 1) → Successive re p []
  | found {p start stop : Nat} {others : List (Nat × Nat)} :
      p < re.fSearch.length → re.Leftmost p start stop →
        Successive re (nextPos p stop) others → Successive re p ((start, stop) :: others)

def between (s : Bytes) (start stop : Nat) : Bytes := (s.drop start).take (stop - start)

def replaced (s substitution : Bytes) : Nat → List (Nat × Nat) → Bytes
  | p, [] => s.drop p
  | p, (start, stop) :: others =>
    between s p start ++ substitution ++ replaced s substitution stop others

def interleaved (pieces texts : List Bytes) : Bytes :=
  (List.zipWith (· ++ ·) pieces texts).flatten ++ (pieces.drop texts.length).flatten

/-- Both return, and no character of the subject is lost. -/
structure LosesNothing (compiled : Compiled) (fMatchFlags : MatchFlags)
    (s : Bytes) (found : List (Nat × Nat)) : Prop where
  successive : (ofCompiled compiled s fMatchFlags).Successive 0 found
  returns : ∀ substitution replaceall, ∃ text,
    Settles (subst compiled fMatchFlags s substitution replaceall) (.ok text)
  replaces : ∀ substitution,
    Settles (subst compiled fMatchFlags s substitution true) (.ok (replaced s substitution 0 found))
  spells : ∃ pieces, Settles (split compiled fMatchFlags s) (.ok pieces) ∧
    interleaved pieces (found.map fun (start, stop) =>
      between s start stop) = s

section

variable {re : RE} {fuel i j p e : Nat} {regs : List Register}

theorem MatchesAt.unique {e' : Nat} (one : re.MatchesAt i e)
    (other : re.MatchesAt i e') : e = e' := by
  rcases one with ⟨_, _, one⟩
  rcases other with ⟨_, _, other⟩
  have same := (matchNodes_settles one).unique (matchNodes_settles other)
  exact Option.some.inj (Except.ok.inj (Prod.mk.inj same).1)

/-- The registers of a match that was found. -/
structure FoundAt (re : RE) (regs : List Register) (start stop : Nat) : Prop where
  isMatch : re.MatchesAt start stop
  first : startRegister regs 0 = start
  last : endRegister regs 0 = stop
  forward : start ≤ stop
  inside : start ≤ re.fSearch.length → stop ≤ re.fSearch.length

theorem matchAt_found (found : re.matchAt fuel i = some (.ok true, regs)) :
    ∃ stop, re.FoundAt regs i stop := by
  rw [matchAt] at found
  rcases map_eq_some_iff.mp found with ⟨⟨_ | _ | idx, after⟩, here, same⟩
  · cases same
  · cases same
  · have forward := ((closed_forward re).all fuel).matchNodes 0 (-1) i _ _ _ here
    have start := forward.keeps 0 i (by
      rw [MatchState.register, matchStart, getD_writeSlot, if_pos rfl])
    have taken := forward.forward idx rfl
    dsimp only at same
    rw [start] at same
    cases same
    refine ⟨idx, ⟨fuel, after, here⟩, ?_, ?_, taken.1, taken.2⟩
    · rw [startRegister, getD_writeSlot, if_pos rfl]
      rfl
    · rw [endRegister, getD_writeSlot, if_pos rfl]
      rfl

theorem matchAt_missed (missed : re.matchAt fuel i = some (.ok false, regs)) :
    ¬re.MatchesAt i e := by
  rintro ⟨_, after, other⟩
  rw [matchAt] at missed
  rcases map_eq_some_iff.mp missed with ⟨⟨_ | _ | idx, mid⟩, here, same⟩
  · cases same
  · cases (matchNodes_settles here).unique (matchNodes_settles other)
  · cases same

variable {tries : Nat → Bool} {positions : Nat}

theorem searchFrom_found
    (skips : ∀ k, p ≤ k → tries k = false → ∀ e, ¬re.MatchesAt k e)
    (found : re.searchFrom tries fuel positions p = some (.ok true, regs)) :
    ∃ start stop, re.FoundAt regs start stop ∧ p ≤ start ∧
      start < p + positions ∧ re.NoMatch p start := by
  induction positions generalizing p with
  | zero => cases found
  | succ positions ih =>
    have rest (missed : ∀ e, ¬re.MatchesAt p e)
        (found : re.searchFrom tries fuel positions (p + 1) = some (.ok true, regs)) :
        ∃ start stop, re.FoundAt regs start stop ∧ p ≤ start ∧
          start < p + (positions + 1) ∧ re.NoMatch p start := by
      rcases ih (fun k behind => skips k (le_of_succ_le behind)) found with
        ⟨start, stop, found, behind, inside, first⟩
      refine ⟨start, stop, found, le_of_succ_le behind, by omega, ?_⟩
      intro k behind before
      rcases eq_or_lt_of_le behind with rfl | behind
      · exact missed
      · exact first k behind before
    rw [searchFrom] at found
    split at found
    · rcases bind_eq_some_iff.mp found with ⟨⟨_ | _ | _, other⟩, here, same⟩
      · cases same
      · exact rest (fun e => matchAt_missed here) same
      · cases same
        rcases matchAt_found here with ⟨stop, isMatch⟩
        exact ⟨p, stop, isMatch, le_refl p, by omega,
          fun k behind before => absurd before (not_lt.mpr behind)⟩
    · rename_i skipped
      exact rest (skips p (le_refl p) (Bool.eq_false_iff.mpr skipped)) found

theorem searchFrom_missed
    (skips : ∀ k, p ≤ k → tries k = false → ∀ e, ¬re.MatchesAt k e)
    (missed : re.searchFrom tries fuel positions p =
      some (.ok false, regs)) : re.NoMatch p (p + positions) := by
  induction positions generalizing p with
  | zero => exact fun k behind before => by omega
  | succ positions ih =>
    have rest (here : ∀ e, ¬re.MatchesAt p e)
        (missed : re.searchFrom tries fuel positions (p + 1) =
          some (.ok false, regs)) : re.NoMatch p (p + (positions + 1)) := by
      have others := ih (fun k behind => skips k (le_of_succ_le behind)) missed
      intro k behind before
      rcases eq_or_lt_of_le behind with rfl | behind
      · exact here
      · exact others k behind (by omega)
    rw [searchFrom] at missed
    split at missed
    · rcases bind_eq_some_iff.mp missed with ⟨⟨_ | _ | _, other⟩, here, same⟩
      · cases same
      · exact rest (fun e => matchAt_missed here) same
      · cases same
    · rename_i skipped
      exact rest (skips p (le_refl p) (Bool.eq_false_iff.mpr skipped)) missed

theorem searchFrom_below {result : SearchResult}
    (returns : re.searchFrom tries fuel positions p = some result) :
    re.searchFrom tries (fuel + 1) positions p = some result := by
  induction positions generalizing p with
  | zero => exact returns
  | succ positions ih =>
    rw [searchFrom] at returns ⊢
    split
    · rename_i tried
      rw [if_pos tried] at returns
      rcases bind_eq_some_iff.mp returns with ⟨found, here, later⟩
      have again : re.matchAt (fuel + 1) p = some found := by
        rw [matchAt] at here ⊢
        rcases map_eq_some_iff.mp here with ⟨run, runs, same⟩
        rw [matchNodes_below runs, ← same]
        rfl
      rw [again, bind_some]
      split at later
      · exact ih later
      · exact later
    · rename_i skipped
      rw [if_neg skipped] at returns
      exact ih returns

end

section

variable {bound fuel p : Nat} {pat message s : Bytes} {compiled : Compiled}
  {fMatchFlags : MatchFlags} {regs : List Register}

theorem containedIn_below {result : SearchResult}
    (returns : containedIn compiled fMatchFlags s p fuel = some result) :
    containedIn compiled fMatchFlags s p (fuel + 1) = some result := by
  rw [containedIn] at returns ⊢
  split
  · rename_i empty
    rw [if_pos empty] at returns
    exact returns
  · rename_i program
    rw [if_neg program] at returns
    split
    · rename_i unfiltered
      rw [if_pos unfiltered] at returns
      exact searchFrom_below returns
    · rename_i filtered
      rw [if_neg filtered] at returns
      exact searchFrom_below returns

theorem containedIn_settles {result : SearchResult}
    (returns : containedIn compiled fMatchFlags s p fuel = some result) :
    Settles (containedIn compiled fMatchFlags s p) result :=
  settles_of_step (fun _ _ => containedIn_below) returns

theorem not_matchesAt_filtered {tree : Branches} {opdata : OpData} {k e : Nat}
    (hasPrefix : prefixOf tree.program = some opdata)
    (misses : (RE.mk tree.program s fMatchFlags).matchAtom opdata.asCharPtr
      k = false) :
    ¬(RE.mk tree.program s fMatchFlags).MatchesAt k e := by
  rcases startsWith_of_prefixOf hasPrefix s fMatchFlags with ⟨last, starts⟩
  rintro ⟨fuel, after, here⟩
  exact matchAt_missed (starts.matchAt_miss misses (le_refl 5)) ⟨fuel, after, here⟩

/-- A search tells the leftmost match, or that there is none. -/
theorem containedIn_tells (compiles : compile bound pat = some (some compiled, message)) {b : Bool}
    (returns : containedIn compiled fMatchFlags s p fuel = some (.ok b, regs)) :
    if b then ∃ start stop, (ofCompiled compiled s fMatchFlags).FoundAt regs start stop ∧
        (ofCompiled compiled s fMatchFlags).Leftmost p start stop
    else (ofCompiled compiled s fMatchFlags).NoMatch p (s.length + 1) := by
  rcases compiled_tree compiles with ⟨tree, -, rfl⟩
  have search {tries : Nat → Bool} {positions : Nat}
      (skips : ∀ k, p ≤ k → tries k = false ∨ p + positions ≤ k ∧ k ≤ s.length → ∀ e,
        ¬(RE.mk tree.program s fMatchFlags).MatchesAt k e)
      (inside : p + positions ≤ s.length + 1 ∨ positions = 0)
      (returns : (RE.mk tree.program s fMatchFlags).searchFrom tries fuel
        positions p = some (.ok b, regs)) :
      if b then ∃ start stop, (RE.mk tree.program s fMatchFlags).FoundAt regs start stop ∧
          (RE.mk tree.program s fMatchFlags).Leftmost p start stop
      else (RE.mk tree.program s fMatchFlags).NoMatch p (s.length + 1) := by
    cases b with
    | true =>
      rcases searchFrom_found (fun k behind skipped =>
        skips k behind (.inl skipped)) returns with
        ⟨start, stop, found, behind, before, first⟩
      rw [if_pos rfl]
      have inside : start ≤ s.length := by omega
      exact ⟨start, stop, found, behind, inside, found.isMatch, first⟩
    | false =>
      have tried := searchFrom_missed (fun k behind skipped =>
        skips k behind (.inl skipped)) returns
      rw [if_neg Bool.false_ne_true]
      intro k behind before
      by_cases there : k < p + positions
      · exact tried k behind there
      · exact skips k behind (.inr ⟨by omega, by omega⟩)
  cases hasPrefix : prefixOf tree.program with
  | none =>
    rw [hasPrefix, containedIn_unfiltered rfl] at returns
    exact search (fun k behind why => by
      rcases why with skipped | outside
      · cases skipped
      · omega) (by omega) returns
  | some opdata =>
    by_cases empty : opdata.asCharPtr = []
    · have none_ : prefixText ⟨tree.program, some opdata⟩ = [] := empty
      rw [hasPrefix, containedIn_unfiltered none_] at returns
      exact search (fun k behind why => by
        rcases why with skipped | outside
        · cases skipped
        · omega) (by omega) returns
    · rw [hasPrefix, containedIn_filtered empty] at returns
      refine search (fun k behind why e => ?_) (by omega) returns
      apply not_matchesAt_filtered hasPrefix
      by_cases inside : opdata.asCharPtr.length + k ≤ s.length
      · rcases why with skipped | outside
        · have nulFree : NulFree opdata.asCharPtr := by
            cases opdata with
            | text s => exact nulFree_cstr s
            | _ => exact not_mem_nil
          rwa [prefixAt_eq nulFree inside] at skipped
        · omega
      · exact matchAtom_outside (not_le.mp inside)

end

/-! ## Rows of searches -/

/-- The searches of the loop from a position on return, and find these
matches. -/
inductive Chain (compiled : Compiled) (fMatchFlags : MatchFlags)
    (s : Bytes) : Nat → List (Nat × Nat) → Prop where
  | outside {p : Nat} : s.length ≤ p → Chain compiled fMatchFlags s p []
  | missed {p fuel : Nat} {regs : List Register} : p < s.length →
      containedIn compiled fMatchFlags s p fuel = some (.ok false, regs) →
        Chain compiled fMatchFlags s p []
  | found {p fuel start stop : Nat} {regs : List Register}
      {others : List (Nat × Nat)} : p < s.length →
      containedIn compiled fMatchFlags s p fuel = some (.ok true, regs) →
        (ofCompiled compiled s fMatchFlags).FoundAt regs start stop → p ≤ start → stop ≤ s.length →
            Chain compiled fMatchFlags s (nextPos p stop) others →
              Chain compiled fMatchFlags s p ((start, stop) :: others)

section

variable {re : RE} {p start stop : Nat}

theorem Leftmost.unique {start' stop' : Nat}
    (one : re.Leftmost p start stop) (other : re.Leftmost p start' stop') :
    start = start' ∧ stop = stop' := by
  have same : start = start' := by
    rcases lt_trichotomy start start' with less | same | more
    · exact absurd one.isMatch (other.first start one.behind less stop)
    · exact same
    · exact absurd other.isMatch (one.first start' other.behind more stop')
  subst same
  exact ⟨rfl, one.isMatch.unique other.isMatch⟩

theorem Leftmost.not_noMatch (leftmost : re.Leftmost p start stop) :
    ¬re.NoMatch p (re.fSearch.length + 1) := fun none_ =>
  none_ start leftmost.behind (lt_succ_of_le leftmost.inside) stop leftmost.isMatch

theorem Successive.unique {one other : List (Nat × Nat)}
    (successive : re.Successive p one) (also : re.Successive p other) :
    one = other := by
  induction successive generalizing other with
  | outside outside =>
    cases also with
    | outside _ => rfl
    | missed _ _ => rfl
    | found before _ _ => exact absurd before (not_lt.mpr outside)
  | missed before none_ =>
    cases also with
    | outside _ => rfl
    | missed _ _ => rfl
    | found _ leftmost _ => exact absurd none_ leftmost.not_noMatch
  | found before leftmost _ ih =>
    cases also with
    | outside outside => exact absurd before (not_lt.mpr outside)
    | missed _ none_ => exact absurd none_ leftmost.not_noMatch
    | found _ leftmost' others =>
      rcases leftmost.unique leftmost' with ⟨rfl, rfl⟩
      rw [ih others]

end

section

variable {bound fuel rounds p : Nat} {pat message s : Bytes}
  {compiled : Compiled} {fMatchFlags : MatchFlags} {found : List (Nat × Nat)}
  {turn : Int → Int → Int → α → α} {a : α}

theorem nextPos_le {start stop : Nat} (before : p < s.length)
    (behind : p ≤ start) (forward : start ≤ stop) (inside : stop ≤ s.length) :
    p < nextPos p stop ∧ nextPos p stop ≤ s.length := by
  rw [nextPos]
  split <;> omega

theorem Chain.successive (compiles : compile bound pat = some (some compiled, message))
    (chain : Chain compiled fMatchFlags s p found) :
    (ofCompiled compiled s fMatchFlags).Successive p found := by
  induction chain with
  | outside outside => exact .outside outside
  | missed before missed =>
    exact .missed before (containedIn_tells compiles missed)
  | @found p fuel start stop regs others before search found _ _ _ rest =>
    have told := containedIn_tells compiles search
    rw [if_pos rfl] at told
    rcases told with ⟨start', stop', found', leftmost⟩
    have sameStart : start' = start := by
      exact_mod_cast found'.first.symm.trans found.first
    have sameStop : stop' = stop := by
      exact_mod_cast found'.last.symm.trans found.last
    rw [sameStart, sameStop] at leftmost
    exact .found before leftmost rest

def turns (turn : Int → Int → Int → α → α) : Nat → List (Nat × Nat) → α → α
  | _, [], a => a
  | p, (start, stop) :: others, a =>
    turns turn (nextPos p stop) others (turn p start stop a)

def lastPos : Nat → List (Nat × Nat) → Nat
  | p, [] => p
  | p, (_, stop) :: others => lastPos (nextPos p stop) others

theorem posOf_small {n : Nat} (small : n < 2 ^ 31) : posOf n = n := by
  rw [posOf, BitVec.toInt_ofInt, Int.bmod_eq_of_le] <;> omega

theorem posOf_next {stop : Nat} (small : nextPos p stop < 2 ^ 31) :
    posOf (if (stop : Int) = p then (stop : Int) + 1 else stop) = nextPos p stop := by
  rw [← posOf_small small, nextPos]
  by_cases same : stop = p
  · rw [if_pos same, if_pos (congrArg Nat.cast same), same]
    rfl
  · rw [if_neg same, if_neg (fun equal => same (Int.natCast_inj.mp equal))]

variable (short : s.length < 2 ^ 31)

include short

theorem searchLoop_chain (chain : Chain compiled fMatchFlags s p found) (inside : p ≤ s.length) :
    ∃ enough, ∀ fuel rounds, enough ≤ fuel → enough ≤ rounds → ∀ a,
      searchLoop (fun pos => containedIn compiled fMatchFlags s pos fuel)
        s.length turn true rounds p a = some (.ok (lastPos p found, turns turn p found a)) := by
  induction chain with
  | @outside p outside =>
    refine ⟨1, fun fuel rounds _ enough a => ?_⟩
    obtain ⟨rounds, rfl⟩ := Nat.exists_eq_add_of_le' enough
    rw [searchLoop, if_neg (by omega)]
    rfl
  | @missed p enough regs before missed =>
    rcases (containedIn_settles missed).enough with ⟨enough, search⟩
    refine ⟨enough + 1, fun fuel rounds large more a => ?_⟩
    obtain ⟨rounds, rfl⟩ := Nat.exists_eq_add_of_le' (Nat.le_trans (Nat.le_add_left 1 enough) more)
    rw [searchLoop, if_pos (by omega), Int.toNat_natCast, search fuel (by omega)]
    rfl
  | @found p enough start stop regs others before found isFound behind stops
      rest ih =>
      rcases (containedIn_settles found).enough with ⟨enough, search⟩
      have next := nextPos_le before behind isFound.forward stops
      rcases ih next.2 with ⟨others, loop⟩
      refine ⟨enough + others + 1, fun fuel rounds large more a => ?_⟩
      obtain ⟨rounds, rfl⟩ := Nat.exists_eq_add_of_le' (Nat.le_trans (Nat.le_add_left 1 _) more)
      have position := @posOf_next p stop (by omega)
      rw [searchLoop, if_pos (by omega), Int.toNat_natCast, search fuel (by omega), bind_some]
      dsimp only
      rw [isFound.first, isFound.last, position, if_pos rfl, loop fuel rounds (by omega) (by omega)]
      rfl

theorem chain_of_searchLoop (compiles : compile bound pat = some (some compiled, message))
    (inside : p ≤ s.length) {result : Int × α}
    (returns : searchLoop (fun pos => containedIn compiled fMatchFlags s pos fuel) s.length turn
      true rounds p a = some (.ok result)) :
    ∃ found, Chain compiled fMatchFlags s p found := by
  induction rounds generalizing p a with
  | zero => cases returns
  | succ rounds ih =>
    by_cases before : p < s.length
    · rw [searchLoop, if_pos (by omega), Int.toNat_natCast] at returns
      rcases bind_eq_some_iff.mp returns with ⟨⟨_ | _ | _, regs⟩, search, later⟩
      · cases later
      · exact ⟨[], .missed before search⟩
      · have told := containedIn_tells compiles search
        rw [if_pos rfl] at told
        rcases told with ⟨start, stop, found, leftmost⟩
        have stops : stop ≤ s.length := found.inside leftmost.inside
        have next := nextPos_le before leftmost.behind found.forward stops
        have position := @posOf_next p stop (by omega)
        dsimp only at later
        rw [found.first, found.last, position, if_pos rfl] at later
        rcases ih next.2 later with ⟨others, rest⟩
        exact ⟨_, .found before search found leftmost.behind stops rest⟩
    · exact ⟨[], .outside (not_lt.mp before)⟩

end

section

variable {s : Bytes}

variable {p q : Nat}

theorem between_append {r : Nat} (before : p ≤ q) (behind : q ≤ r) :
    between s p q ++ between s q r = between s p r := by
  have split : (s.drop p).take (r - p) =
      (s.drop p).take (q - p) ++ ((s.drop p).drop (q - p)).take (r - q) := by
    rw [← take_add]
    congr 1
    omega
  rw [between, between, between, split, drop_drop]
  congr 4
  omega

theorem between_drop (before : p ≤ q) : between s p q ++ s.drop q = s.drop p := by
  have whole := take_append_drop (q - p) (s.drop p)
  rw [drop_drop, Nat.add_sub_cancel' before] at whole
  exact whole

theorem length_between (inside : q ≤ s.length) : (between s p q).length = q - p := by
  rw [between, length_take, length_drop]
  omega

theorem between_self (s : Bytes) (p : Nat) : between s p p = [] := by
  rw [between, Nat.sub_self, take_zero]

theorem subStringFrom_between (before : p ≤ q) (inside : q ≤ s.length) :
    subStringFrom s p ((q : Int) - p) = between s p q := by
  rw [← Int.ofNat_sub before]
  exact subStringFrom_part (by omega)

/-- What `Subst` makes of a text from an index on: the character that is
stepped over is not taken. -/
def kept (s substitution : Bytes) : Nat → List (Nat × Nat) → Bytes
  | p, [] => s.drop p
  | p, (start, stop) :: others =>
    between s p start ++ substitution ++ kept s substitution (nextPos p stop) others

/-- No match is empty at the position where its search began. -/
def NoneEmpty : Nat → List (Nat × Nat) → Prop
  | _, [] => True
  | p, (_, stop) :: others => stop ≠ p ∧ NoneEmpty (nextPos p stop) others

def pieces (s : Bytes) : Nat → List (Nat × Nat) → List Bytes
  | _, [] => []
  | p, (start, stop) :: others =>
    (if stop = p then between s p (start + 1) else between s p start) ::
      pieces s (nextPos p stop) others

variable {compiled : Compiled} {fMatchFlags : MatchFlags} {p : Nat} {found : List (Nat × Nat)}

theorem turns_subst (substitution ret : Bytes) (chain : Chain compiled fMatchFlags s p found) :
    turns (substTurn s substitution) p found ret ++ s.drop (lastPos p found) =
      ret ++ kept s substitution p found := by
  induction chain generalizing ret with
  | outside _ => rfl
  | missed _ _ => rfl
  | @found p fuel start stop regs others before _ isFound behind stops _
      ih =>
      have starts : start ≤ s.length := Nat.le_trans isFound.forward stops
      rw [turns, lastPos, kept, ih, substTurn, subStringFrom_between behind starts]
      simp only [append_assoc]

theorem turns_split (res : List Bytes) (chain : Chain compiled fMatchFlags s p found) :
    turns (splitTurn s) p found res = res ++ pieces s p found := by
  induction chain generalizing res with
  | outside _ => exact (append_nil res).symm
  | missed _ _ => exact (append_nil res).symm
  | @found p fuel start stop regs others before _ isFound behind stops _
      ih =>
      have starts : start ≤ s.length := Nat.le_trans isFound.forward stops
      have one : splitTurn s p start stop res = res ++
          [if stop = p then between s p (start + 1) else between s p start] := by
        rw [splitTurn]
        by_cases same : stop = p
        · rw [if_pos (congrArg Nat.cast same), if_pos same]
          have forward := isFound.forward
          have piece := @subStringFrom_between s p (start + 1) (by omega) (by omega)
          rw [← piece]
          rfl
        · rw [if_neg fun equal => same (Int.natCast_inj.mp equal),
            if_neg same, subStringFrom_between behind starts]
      rw [turns, pieces, ih, one, append_assoc]
      rfl

theorem replaced_succ (substitution : Bytes) (chain : Chain compiled fMatchFlags s (p + 1) found) :
    replaced s substitution p found =
      between s p (p + 1) ++ replaced s substitution (p + 1) found := by
  cases chain with
  | outside _ => exact (between_drop (le_succ p)).symm
  | missed _ _ => exact (between_drop (le_succ p)).symm
  | @found _ _ start _ _ _ _ _ _ behind _ _ =>
    rw [replaced, replaced, ← between_append (le_succ p) behind]
    simp only [append_assoc]

theorem kept_length (substitution : Bytes) (chain : Chain compiled fMatchFlags s p found) :
    (kept s substitution p found).length ≤ (replaced s substitution p found).length ∧
      ((kept s substitution p found).length = (replaced s substitution p found).length →
        NoneEmpty p found) := by
  induction chain with
  | outside _ => exact ⟨le_refl _, fun _ => trivial⟩
  | missed _ _ => exact ⟨le_refl _, fun _ => trivial⟩
  | @found p fuel start stop regs others before _ isFound behind stops rest
      ih =>
      simp only [kept, replaced, length_append]
      by_cases same : stop = p
      · rw [nextPos, if_pos same] at rest ih ⊢
        have longer := congrArg List.length (replaced_succ substitution rest)
        rw [length_append, length_between before] at longer
        rw [same, longer]
        exact ⟨by omega, fun equal => by omega⟩
      · rw [NoneEmpty]
        rw [nextPos, if_neg same] at ih ⊢
        exact ⟨by omega, fun equal =>
          ⟨same, ih.2 (by omega)⟩⟩

theorem kept_eq (substitution : Bytes) (noneEmpty : NoneEmpty p found) :
    kept s substitution p found = replaced s substitution p found := by
  induction found generalizing p with
  | nil => rfl
  | cons first others ih =>
    rcases noneEmpty with ⟨moves, rest⟩
    rw [kept, replaced, ih rest, nextPos, if_neg moves]

theorem interleaved_pieces (chain : Chain compiled fMatchFlags s p found) (remainder : List Bytes)
    (isRest : remainder.flatten = s.drop (lastPos p found)) :
    interleaved (pieces s p found ++ remainder)
      (found.map fun (start, stop) => between s start stop) = s.drop p := by
  have noMatch {p : Nat} (isRest : remainder.flatten = s.drop p) :
      interleaved ([] ++ remainder) [] = s.drop p := by
    rw [interleaved, zipWith_nil_right]
    exact isRest
  induction chain with
  | outside _ => exact noMatch isRest
  | missed _ _ => exact noMatch isRest
  | @found p fuel start stop regs others before _ isFound behind stops rest
      ih =>
      have here := ih isRest
      have forward := isFound.forward
      rw [interleaved] at here
      rw [pieces, map_cons, cons_append, interleaved, zipWith_cons_cons, flatten_cons, length_cons,
        drop_succ_cons, append_assoc, here, nextPos]
      dsimp only
      by_cases same : stop = p
      · obtain rfl : start = p := by omega
        rw [if_pos same, if_pos same, same, between_self, append_nil]
        exact between_drop (le_succ start)
      · rw [if_neg same, if_neg same, between_append behind forward]
        exact between_drop (Nat.le_trans behind forward)

end

section

variable {bound fuel : Nat} {pat message s : Bytes} {compiled : Compiled}
  {fMatchFlags : MatchFlags} {found : List (Nat × Nat)}

/-- The positions where the loop searches, which are the beginning and the
places behind the matches. -/
inductive Reached (re : RE) : Nat → Prop where
  | start : Reached re 0
  | next {p start stop : Nat} : Reached re p → p < re.fSearch.length →
      re.Leftmost p start stop → Reached re (nextPos p stop)

def SearchReturns (compiled : Compiled) (fMatchFlags : MatchFlags) (s : Bytes) (p : Nat) : Prop :=
  ∃ fuel b regs, containedIn compiled fMatchFlags s p fuel = some (.ok b, regs)

/-- The search at a position in front of a character returns, and there is no
empty match at the position. -/
def Keeping (compiled : Compiled) (fMatchFlags : MatchFlags) (s : Bytes) : Prop :=
  ∀ p, (ofCompiled compiled s fMatchFlags).Reached p → p < s.length →
    SearchReturns compiled fMatchFlags s p ∧ ¬(ofCompiled compiled s fMatchFlags).MatchesAt p p

theorem searchLoop_below {find find' : Nat → Option SearchResult} {len : Nat}
    {turn : Int → Int → Int → α → α} {again : Bool} {rounds : Nat} {pos : Int}
    {a : α} {result : Except MatchExit (Int × α)}
    (below : ∀ pos result, find pos = some result → find' pos = some result)
    (returns : searchLoop find len turn again rounds pos a = some result) :
    searchLoop find' len turn again (rounds + 1) pos a = some result := by
  induction rounds generalizing pos a with
  | zero => cases returns
  | succ rounds ih =>
    rw [searchLoop] at returns ⊢
    split
    · rename_i before
      rw [if_pos before] at returns
      rcases bind_eq_some_iff.mp returns with ⟨search, here, later⟩
      rw [below _ _ here, bind_some]
      rcases search with ⟨_ | _ | _, regs⟩
      · exact later
      · exact later
      · dsimp only at later ⊢
        split
        · rename_i goesOn
          rw [if_pos goesOn] at later
          exact ih later
        · rename_i once
          rw [if_neg once] at later
          exact later
    · rename_i behind
      rw [if_neg behind] at returns
      exact returns

theorem split_settles {result : Except MatchExit (List Bytes)}
    (returns : split compiled fMatchFlags s fuel = some result) :
    Settles (split compiled fMatchFlags s) result := by
  refine settles_of_step (fun fuel result returns => ?_) returns
  rcases map_eq_some_iff.mp returns with ⟨loop, here, same⟩
  have again := searchLoop_below (fun _ _ => containedIn_below) here
  rw [split, again, ← same]
  rfl

theorem subst_settles {substitution : Bytes} {replaceall : Bool} {result : Except MatchExit Bytes}
    (returns : subst compiled fMatchFlags s substitution replaceall fuel = some result) :
    Settles (subst compiled fMatchFlags s substitution replaceall) result := by
  refine settles_of_step (fun fuel result returns => ?_) returns
  rcases map_eq_some_iff.mp returns with ⟨loop, here, same⟩
  have again := searchLoop_below (fun _ _ => containedIn_below) here
  rw [subst, again, ← same]
  rfl

variable (short : s.length < 2 ^ 31)

include short

theorem Chain.split (chain : Chain compiled fMatchFlags s 0 found) :
    ∃ list, Settles (split compiled fMatchFlags s) (.ok list) ∧
      interleaved list (found.map fun (start, stop) =>
        between s start stop) = s := by
  rcases @searchLoop_chain _ _ _ _ _ _ (splitTurn s) short chain (zero_le _) with ⟨enough, loop⟩
  let remainder := s.drop (lastPos 0 found)
  have returns : RE.split compiled fMatchFlags s enough = some (.ok
      (pieces s 0 found ++ if remainder.length ≠ 0 then [remainder] else [])) := by
    have turns := loop enough enough (le_refl _) (le_refl _) []
    rw [turns_split [] chain, nil_append] at turns
    rw [RE.split]
    rw [cast_zero] at turns
    rw [turns, map_some]
    show some (Except.ok (if (subStringFrom s (lastPos 0 found) (-1)).length ≠ 0 then _ else _)) = _
    rw [subStringFrom_rest]
    split
    · rfl
    · rw [append_nil]
  refine ⟨_, split_settles returns, interleaved_pieces chain _ ?_⟩
  split
  · exact append_nil _
  · rename_i empty
    exact (length_eq_zero_iff.mp (not_not.mp empty)).symm

theorem Chain.subst (substitution : Bytes) (chain : Chain compiled fMatchFlags s 0 found) :
    Settles (subst compiled fMatchFlags s substitution true)
      (.ok (kept s substitution 0 found)) := by
  rcases @searchLoop_chain _ _ _ _ _ _ (substTurn s substitution) short
    chain (zero_le _) with ⟨enough, loop⟩
  have turns := loop enough enough (le_refl _) (le_refl _) []
  have whole := turns_subst substitution [] chain
  rw [nil_append] at whole
  refine @subst_settles enough _ _ _ _ _ _ ?_
  rw [RE.subst]
  rw [cast_zero] at turns
  rw [turns, map_some, ← whole]
  show some (Except.ok (if ((lastPos 0 found : Nat) : Int) < s.length then _ else _)) = _
  split
  · rw [subStringFrom_rest]
  · rename_i behind
    rw [drop_eq_nil_of_le (by omega), append_nil]

theorem subst_once (substitution : Bytes) (chain : Chain compiled fMatchFlags s 0 found) :
    ∃ text, Settles (RE.subst compiled fMatchFlags s substitution false) (.ok text) := by
  have returns : ∃ fuel pos ret, searchLoop
      (fun pos => containedIn compiled fMatchFlags s pos fuel) s.length
      (substTurn s substitution) false fuel 0 [] = some (.ok (pos, ret)) := by
    cases chain with
    | outside outside =>
      obtain rfl : s = [] := length_eq_zero_iff.mp (le_zero.mp outside)
      exact ⟨1, 0, [], rfl⟩
    | @missed _ fuel regs before missed =>
      refine ⟨fuel + 1, 0, [], ?_⟩
      rw [searchLoop, if_pos (by omega), Int.toNat_zero, containedIn_below missed]
      rfl
    | @found _ fuel start stop regs others before search _ _ _ _ =>
      refine ⟨fuel + 1, posOf (if endRegister regs 0 = 0 then
        endRegister regs 0 + 1 else endRegister regs 0),
        substTurn s substitution 0 (startRegister regs 0) (endRegister regs 0) [], ?_⟩
      rw [searchLoop, if_pos (by omega), Int.toNat_zero, containedIn_below search]
      rfl
  rcases returns with ⟨fuel, pos, ret, loop⟩
  refine ⟨if pos < s.length then ret ++ subStringFrom s pos (-1) else ret,
    @subst_settles fuel _ _ _ _ _ _ ?_⟩
  rw [RE.subst, loop]
  rfl

section

variable (compiles : compile bound pat = some (some compiled, message))
include compiles

omit short in
theorem chain_of_keeping
    (keeping : Keeping compiled fMatchFlags s) {p : Nat}
    (reached : (ofCompiled compiled s fMatchFlags).Reached p) (inside : p ≤ s.length) :
    ∃ found, Chain compiled fMatchFlags s p found ∧ NoneEmpty p found := by
  induction left : s.length - p using Nat.strong_induction_on
    generalizing p with
  | _ left ih =>
    by_cases before : p < s.length
    · rcases keeping p reached before with ⟨⟨fuel, b, regs, search⟩, noEmpty⟩
      have told := containedIn_tells compiles search
      cases b with
      | false => exact ⟨[], .missed before search, trivial⟩
      | true =>
        rw [if_pos rfl] at told
        rcases told with ⟨start, stop, isFound, leftmost⟩
        have stops : stop ≤ s.length := isFound.inside leftmost.inside
        have forward := isFound.forward
        have behind := leftmost.behind
        have moves : stop ≠ p := by
          rintro rfl
          obtain rfl : start = stop := le_antisymm forward behind
          exact noEmpty leftmost.isMatch
        have next := nextPos_le before behind forward stops
        rcases ih (s.length - nextPos p stop)
          (by omega) (reached.next before leftmost) next.2 rfl with
          ⟨others, chain, noneEmpty⟩
        exact ⟨_, .found before search isFound behind stops chain, moves, noneEmpty⟩
    · exact ⟨[], .outside (not_lt.mp before), trivial⟩

omit short in
theorem chain_of_reached
    (chain : Chain compiled fMatchFlags s 0 found) (noneEmpty : NoneEmpty 0 found) {p : Nat}
    (reached : (ofCompiled compiled s fMatchFlags).Reached p) :
    ∃ others, Chain compiled fMatchFlags s p others ∧ NoneEmpty p others := by
  induction reached with
  | start => exact ⟨found, chain, noneEmpty⟩
  | @next p start stop _ before leftmost ih =>
    rcases ih with ⟨others, rest, noneEmpty⟩
    cases rest.successive compiles with
    | outside outside => exact absurd before (not_lt.mpr outside)
    | missed _ none_ => exact absurd none_ leftmost.not_noMatch
    | found _ leftmost' _ =>
      rcases leftmost.unique leftmost' with ⟨rfl, rfl⟩
      cases rest with
      | found _ _ _ _ _ later => exact ⟨_, later, noneEmpty.2⟩

omit short in
theorem keeping_of_chain
    (chain : Chain compiled fMatchFlags s 0 found)
    (noneEmpty : NoneEmpty 0 found) : Keeping compiled fMatchFlags s := by
  intro p reached before
  rcases chain_of_reached compiles chain noneEmpty reached with ⟨others, rest, noneEmpty⟩
  cases rest with
  | outside outside => exact absurd before (not_lt.mpr outside)
  | @missed _ fuel regs _ search =>
    have none_ := containedIn_tells compiles search
    exact ⟨⟨fuel, false, regs, search⟩, none_ p (le_refl p) (lt_succ_of_lt before) p⟩
  | @found _ fuel start stop regs others _ search isFound behind _ _ =>
    refine ⟨⟨fuel, true, regs, search⟩, fun empty => ?_⟩
    have told := containedIn_tells compiles search
    rw [if_pos rfl] at told
    rcases told with ⟨start', stop', found', leftmost⟩
    have sameStop : stop' = stop := by
      exact_mod_cast found'.last.symm.trans isFound.last
    have here : start' = p := by
      by_contra other
      exact leftmost.first p (le_refl p)
        (lt_of_le_of_ne leftmost.behind (Ne.symm other)) p empty
    subst here sameStop
    exact noneEmpty.1 (leftmost.isMatch.unique empty)

end

omit short in
theorem searchFrom_returns {re : RE}
    (returns : ∀ i, ∃ fuel result after,
      re.matchNodes fuel 0 (-1) i (matchStart i) = some (.ok result, after))
    (tries : Nat → Bool) (positions p : Nat) :
    ∃ fuel b regs, re.searchFrom tries fuel positions p = some (.ok b, regs) := by
  induction positions generalizing p with
  | zero => exact ⟨0, false, [], rfl⟩
  | succ positions ih =>
    rcases ih (p + 1) with ⟨fuel, b, regs, later⟩
    rcases returns p with ⟨enough, result, after, here⟩
    have settles := settles_of_step (f := fun fuel => re.searchFrom tries fuel positions (p + 1))
      (fun _ _ => searchFrom_below) later
    have one := (matchNodes_settles here).enough
    have rest := settles.enough
    rcases one with ⟨m, one⟩
    rcases rest with ⟨n, rest⟩
    have match_ := one (m + n) (le_add_right _ _)
    have other := rest (m + n) (Nat.le_add_left _ _)
    refine ⟨m + n, ?_⟩
    rw [searchFrom]
    by_cases tried : tries p = true
    · rw [if_pos tried, matchAt, match_]
      cases result with
      | none => exact ⟨b, regs, other⟩
      | some idx => exact ⟨true, _, rfl⟩
    · rw [if_neg tried]
      exact ⟨b, regs, other⟩

omit short in
theorem searchReturns_of_safe (safe : Safe pat)
    (compiles : compile bound pat = some (some compiled, message)) (p : Nat) :
    SearchReturns compiled fMatchFlags s p := by
  have returns (i : Nat) : ∃ fuel result after,
      (ofCompiled compiled s fMatchFlags).matchNodes fuel 0 (-1) i
        (matchStart i) = some (.ok result, after) := by
    rcases matchNodes_returns safe compiles s fMatchFlags i with ⟨result, after, settles⟩
    rcases settles.returns with ⟨fuel, here⟩
    exact ⟨fuel, result, after, here⟩
  rcases compiled_tree compiles with ⟨tree, -, rfl⟩
  cases hasPrefix : prefixOf tree.program with
  | none =>
    rw [hasPrefix] at returns
    rcases searchFrom_returns returns (fun _ => true) (s.length + 1 - p) p
      with ⟨fuel, b, regs, search⟩
    exact ⟨fuel, b, regs, (containedIn_unfiltered rfl).trans search⟩
  | some opdata =>
    rw [hasPrefix] at returns
    by_cases empty : opdata.asCharPtr = []
    · have none_ : prefixText ⟨tree.program, some opdata⟩ = [] := empty
      rcases searchFrom_returns returns (fun _ => true) (s.length + 1 - p) p
        with ⟨fuel, b, regs, search⟩
      exact ⟨fuel, b, regs, (containedIn_unfiltered none_).trans search⟩
    · rcases searchFrom_returns returns _ _ p with ⟨fuel, b, regs, search⟩
      exact ⟨fuel, b, regs, (containedIn_filtered empty).trans search⟩

theorem LosesNothing.keeping (compiles : compile bound pat = some (some compiled, message))
    (loses : LosesNothing compiled fMatchFlags s found) :
    Keeping compiled fMatchFlags s := by
  rcases loses.returns [] true with ⟨text, settles⟩
  rcases settles.returns with ⟨fuel, returns⟩
  rcases map_eq_some_iff.mp returns with ⟨_ | result, loop, same⟩
  · cases same
  · rcases chain_of_searchLoop short compiles (zero_le _) loop with ⟨found', chain⟩
    obtain rfl := loses.successive.unique (chain.successive compiles)
    have kept := (chain.subst short []).unique (loses.replaces [])
    have length := congrArg List.length (Except.ok.inj kept)
    exact keeping_of_chain compiles chain ((kept_length [] chain).2 length)

/-- `Split` and `Subst` return and lose no character exactly when the searches
that they make return and none finds an empty match where it begins; with a
safe pattern every search returns. -/
theorem losesNothing_iff (compiles : compile bound pat = some (some compiled, message)) :
    ((∃ found, LosesNothing compiled fMatchFlags s found) ↔ Keeping compiled fMatchFlags s) ∧
    (Safe pat → ∀ p, SearchReturns compiled fMatchFlags s p) := by
  refine ⟨⟨?_, fun keeping => ?_⟩, fun safe p =>
    searchReturns_of_safe safe compiles p⟩
  · rintro ⟨found, loses⟩
    exact loses.keeping short compiles
  · rcases chain_of_keeping compiles keeping .start (zero_le _) with ⟨found, chain, noneEmpty⟩
    refine ⟨found, chain.successive compiles, fun substitution all => ?_,
      fun substitution => ?_, chain.split short⟩
    · cases all with
      | true => exact ⟨_, chain.subst short substitution⟩
      | false => exact subst_once short substitution chain
    · rw [← kept_eq substitution noneEmpty]
      exact chain.subst short substitution

end

/-- The pattern `b+`. -/
private def plusTree' : Branches := .one (.closure .plus true (.terminal (.atom (lit "b"))))

theorem losesNothing_plus :
    ∃ found, LosesNothing ⟨plusTree'.program, some (.text (lit "b"))⟩
      ⟨false, false, false⟩ (lit "abba") found := by
  have reads : ReadsAs (lit "b+") (.ok plusTree') := ⟨20, _, rfl, rfl⟩
  have solid : plusTree'.Solid := by
    show cstr (lit "b") ≠ []
    decide
  have compiles : compile 20 (lit "b+") =
      some (some ⟨plusTree'.program, some (.text (lit "b"))⟩, []) := rfl
  have safe : Safe (lit "b+") := safe_of_solid reads solid (by decide)
  have loses := @losesNothing_iff 20 (lit "b+") [] (lit "abba") _
    ⟨false, false, false⟩ (by decide) compiles
  refine loses.1.mpr fun p _ before => ⟨loses.2 safe p, ?_⟩
  let re : RE := ⟨plusTree'.program, lit "abba", ⟨false, false, false⟩⟩
  have run : ∀ p < 4, (re.matchNodes 20 0 (-1) p (matchStart p)).map
      (fun result => decide (result.1 = .ok (some p))) = some false := by
    decide +kernel
  rintro ⟨fuel, after, here⟩
  rcases map_eq_some_iff.mp (run p before) with ⟨result, same, other⟩
  have equal := (matchNodes_settles here).unique (matchNodes_settles same)
  rw [← equal] at other
  exact of_decide_eq_false other rfl

/-- The pattern `x*`. -/
private def starTree : Branches := .one (.closure .star true (.terminal (.atom (lit "x"))))

/-- A character where there is an empty match is lost. -/
theorem not_losesNothing :
    ¬∀ bound pat (compiled : Compiled) message, compile bound pat = some (some compiled, message) →
        ∀ fMatchFlags (s : Bytes), ∃ found, LosesNothing compiled fMatchFlags s found := by
  intro always
  have compiles : compile 20 (lit "x*") = some (some ⟨starTree.program, none⟩, []) := rfl
  rcases always 20 _ _ _ compiles ⟨false, false, false⟩ (lit "abc") with ⟨found, loses⟩
  have keeping := loses.keeping (by decide) compiles
  exact (keeping 0 .start (by decide)).2 ⟨20, _, rfl⟩

end RE

end Coast
