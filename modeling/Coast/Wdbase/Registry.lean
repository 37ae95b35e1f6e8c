import Coast.Base.AnyAccess

/-!
# The registry

A registry keeps its objects by name, an object may have several names.  The
iterator copies the handle of the table, and reads it with the index that
expands the table.
-/

namespace Coast

/-- An iterator of a registry; one that goes backwards ends at the first
entry. -/
structure RegistryIterator where
  fForward : Bool
  fStart : Int
  fEnd : Int
  ends : fForward = false → fEnd = 0
  deriving DecidableEq, Repr

namespace RegistryIterator

variable {ω : Type}

def new (table : Slots (Option ω)) (forward : Bool) : RegistryIterator :=
  match forward with
  | true => ⟨true, 0, table.length - 1, nofun⟩
  | false => ⟨false, table.length - 1, 0, fun _ => rfl⟩

def hasMore (this : RegistryIterator) : Bool :=
  if this.fForward then this.fStart ≤ this.fEnd
  else this.fStart ≥ this.fEnd

/-- The iterator follows a table that has become shorter. -/
def correct (this : RegistryIterator) (size : Nat) : RegistryIterator where
  fForward := this.fForward
  fStart :=
    if 0 < this.fStart ∧ (size : Int) < this.fStart then size - 1
    else this.fStart
  fEnd :=
    if 0 < this.fEnd ∧ (size : Int) - 1 < this.fEnd then size - 1
    else this.fEnd
  ends backward := by
    rw [this.ends backward]
    rfl

def advance (this : RegistryIterator) : RegistryIterator :=
  { this with
    fStart := if this.fForward then this.fStart + 1 else this.fStart - 1 }

def expand (table : Slots (Option ω)) (index : Nat) : Slots (Option ω) :=
  table ++ List.replicate (index + 1 - table.length) ([], none)

/-- The object and the key, and what they leave of the iterator and the
table.  A thread that allocates from elsewhere expands only a copy of the
table. -/
def next (shared : Bool) (this : RegistryIterator) (table : Slots (Option ω)) (key : Bytes) :
    Option ω × Bytes × RegistryIterator × Slots (Option ω) :=
  let this := this.correct table.length
  if this.hasMore then
    let read := expand table this.fStart.toNat
    let slot := read[this.fStart.toNat]?.getD ([], none)
    (slot.2, slot.1, this.advance, if shared then read else table)
  else (none, key, this, table)

/-- `RemoveNext`.  A thread that allocates from elsewhere removes the slot of
a copy of the table. -/
def removeNext (shared : Bool) (this : RegistryIterator) (table : Slots (Option ω)) (key : Bytes) :
    Option ω × Bytes × RegistryIterator × Slots (Option ω) :=
  let (obj, key, this, table) := this.next shared table key
  if this.hasMore then
    let this := if this.fForward then { this with fStart := this.fStart - 1 } else this
    let slot := if this.fForward then this.fStart else this.fStart + 1
    (obj, key, this, if shared then Slots.remove slot table else table)
  else (obj, key, this, table)

def left (this : RegistryIterator) : Nat :=
  if this.fForward then (this.fEnd + 1 - this.fStart).toNat
  else (this.fStart + 1 - this.fEnd).toNat

variable {this : RegistryIterator}

theorem correct_left (size : Nat) (more : this.hasMore = true) :
    (this.correct size).left ≤ this.left := by
  cases forward : this.fForward with
  | true =>
    simp only [hasMore, forward, if_true, decide_eq_true_eq] at more
    simp only [left, correct, forward, if_true]
    split <;> split <;> omega
  | false =>
    simp only [left, correct, forward, this.ends forward,
      Bool.false_eq_true, if_false, Int.lt_irrefl, false_and]
    split <;> omega

theorem advance_left (more : this.hasMore = true) : this.advance.left < this.left := by
  cases forward : this.fForward with
  | true =>
    simp only [hasMore, forward, if_true, decide_eq_true_eq] at more
    simp only [left, advance, forward, if_true]
    omega
  | false =>
    simp only [hasMore, forward, Bool.false_eq_true, if_false, ge_iff_le, decide_eq_true_eq] at more
    simp only [left, advance, forward, Bool.false_eq_true, if_false]
    omega

theorem left_pos (more : this.hasMore = true) : 0 < this.left :=
  Nat.lt_of_le_of_lt (Nat.zero_le _) (advance_left more)

theorem left_of_not_hasMore (ended : ¬ this.hasMore = true) : this.left = 0 := by
  cases forward : this.fForward with
  | true =>
    simp only [hasMore, forward, if_true, decide_eq_true_eq] at ended
    simp only [left, forward, if_true]
    omega
  | false =>
    simp only [hasMore, forward, Bool.false_eq_true, if_false, ge_iff_le,
      decide_eq_true_eq] at ended
    simp only [left, forward, Bool.false_eq_true, if_false]
    omega

theorem next_left {shared : Bool} {table : Slots (Option ω)} {key : Bytes}
    (more : this.hasMore = true) :
    (this.next shared table key).2.2.1.left < this.left := by
  rw [next]
  by_cases stillMore : (this.correct table.length).hasMore = true
  · rw [if_pos stillMore]
    exact Nat.lt_of_lt_of_le (advance_left stillMore) (correct_left _ more)
  · rw [if_neg stillMore]
    change (this.correct table.length).left < _
    rw [left_of_not_hasMore stillMore]
    exact left_pos more

end RegistryIterator

/-- What is done with an object of the registry. -/
inductive ObjectUse (ω : Type) where
  | finalize (object : ω)
  | isStatic (object : ω)
  | delete (object : ω)
  deriving DecidableEq, Repr

def ObjectUse.object {ω : Type} : ObjectUse ω → ω
  | .finalize object | .isStatic object | .delete object => object

/-- The table of the registered objects; names are C strings. -/
structure RegistryTable (ω : Type) where
  fTable : Slots (Option ω)
  keysOk : fTable.KeysOk
  objects : ∀ slot ∈ fTable, slot.2.isSome = true

namespace RegistryTable

open RegistryIterator

variable {ω : Type} [DecidableEq ω]

def find (table : Slots (Option ω)) (name : Bytes) : Option ω :=
  if table.isDefined name then (table.lookup name).getD none else none

/-- All slots with this object are removed. -/
def removeAliasesLoop (shared : Bool) (obj : ω) (ri : RegistryIterator)
    (table : Slots (Option ω)) : Slots (Option ω) :=
  if _more : ri.hasMore = true then
    let turn := ri.next shared table []
    removeAliasesLoop shared obj turn.2.2.1
      (if turn.1 = some obj then turn.2.2.2.removeKey turn.2.1 else turn.2.2.2)
  else table
termination_by ri.left
decreasing_by exact next_left _more

def removeAliases (shared : Bool) (obj : ω) (table : Slots (Option ω)) : Slots (Option ω) :=
  removeAliasesLoop shared obj (.new table false) table

def unregisterRegisterableObject (shared : Bool)
    (table : Slots (Option ω)) (name : Bytes) : Slots (Option ω) :=
  match find table name with
  | some o => removeAliases shared o (table.removeKey name)
  | none => table

/-- The loop of `AliasTerminator::DoTerminate`: what is done with the
objects, and the table that is left. -/
def doTerminateLoop (shared : Bool) (isStatic : ω → Bool)
    (ri : RegistryIterator) (table : Slots (Option ω)) (name : Bytes) :
    List (ObjectUse ω) × Slots (Option ω) :=
  if _more : ri.hasMore = true then
    let turn := ri.next shared table name
    match turn.1 with
    | none =>
      doTerminateLoop shared isStatic turn.2.2.1 turn.2.2.2 turn.2.1
    | some ro =>
      if isStatic ro then
        let rest := doTerminateLoop shared isStatic turn.2.2.1 turn.2.2.2 turn.2.1
        ([.finalize ro, .isStatic ro] ++ rest.1, rest.2)
      else
        let rest := doTerminateLoop shared isStatic turn.2.2.1
          (unregisterRegisterableObject shared turn.2.2.2 turn.2.1)
          turn.2.1
        ([.finalize ro, .isStatic ro, .delete ro] ++ rest.1, rest.2)
  else ([], table)
termination_by ri.left
decreasing_by all_goals exact next_left _more

def doTerminate (shared : Bool) (isStatic : ω → Bool) (table : Slots (Option ω)) :
    List (ObjectUse ω) × Slots (Option ω) :=
  doTerminateLoop shared isStatic (.new table false) table []

def create : RegistryTable ω := ⟨[], ⟨.nil, nofun⟩, nofun⟩

/-- The object is stored under the name, in place of an earlier one. -/
def registerRegisterableObject (this : RegistryTable ω) (name : Bytes) (o : ω) :
    RegistryTable ω where
  fTable := this.fTable.setKey (cstr name) (some o)
  keysOk := this.keysOk.setKey (nulFree_cstr name) (some o)
  objects := by
    intro slot member
    rcases Slots.mem_setKey slot member with new | ⟨old, before, same⟩
    · rw [new]
      rfl
    · rw [← same]
      exact this.objects old before

end RegistryTable

/-!
## The termination of a registry

The loop walks the table from its end.  An object takes all of its entries
along, and the position may then be just behind the table.
-/

open List Nat

namespace RegistryIterator

variable {ω : Type}

def back (n : Nat) : RegistryIterator := ⟨false, (n : Int) - 1, 0, fun _ => rfl⟩

theorem new_backward (table : Slots (Option ω)) : new table false = back table.length := rfl

theorem hasMore_back (n : Nat) : (back n).hasMore = decide (0 < n) := by
  simp only [hasMore, back, Bool.false_eq_true, if_false, ge_iff_le]
  apply decide_eq_decide.mpr
  omega

theorem advance_back (n : Nat) : (back (n + 1)).advance = back n := by
  simp only [advance, back, Bool.false_eq_true, if_false,
    Int.natCast_add, Int.cast_ofNat_Int, Int.add_sub_cancel]

theorem correct_back (n size : Nat) :
    (back (n + 1)).correct size = back (if size < n then size else n + 1) := by
  by_cases behind : size < n
  · have positive : (0 : Int) < ((n + 1 : Nat) : Int) - 1 := by omega
    have late : (size : Int) < ((n + 1 : Nat) : Int) - 1 := by omega
    simp only [correct, back, if_pos behind, positive, late, and_self,
      if_true, Int.lt_irrefl, false_and, if_false]
  · have early : ¬ (size : Int) < ((n + 1 : Nat) : Int) - 1 := by omega
    simp only [correct, back, if_neg behind, early, and_false, if_false, Int.lt_irrefl, false_and]

theorem start_back (n : Nat) : (back (n + 1)).fStart.toNat = n := by
  change (((n + 1 : Nat) : Int) - 1).toNat = n
  omega

variable {table : Slots (Option ω)}

theorem expand_of_lt {n : Nat} (inside : n < table.length) : expand table n = table := by
  have none : n + 1 - table.length = 0 := Nat.sub_eq_zero_of_le inside
  rw [expand, none, replicate_zero, append_nil]

theorem next_inside (shared : Bool) {n : Nat}
    {slot : Bytes × Option ω} (here : table[n]? = some slot) (key : Bytes) :
    (back (n + 1)).next shared table key = (slot.2, slot.1, back n, table) := by
  have inside : n < table.length := (List.getElem?_eq_some_iff.mp here).1
  have stays : ¬ table.length < n := not_lt.mpr inside.le
  rw [next, correct_back, if_neg stays, hasMore_back, if_pos (decide_eq_true n.succ_pos)]
  simp only [start_back, expand_of_lt inside, here, Option.getD_some, advance_back, ite_self]

theorem next_outside (shared : Bool) (table : Slots (Option ω)) (key : Bytes) :
    (back (table.length + 1)).next shared table key =
      (none, [], back table.length, if shared then table ++ [([], none)] else table) := by
  have read : expand table table.length = table ++ [([], none)] := by
    rw [expand, Nat.add_sub_cancel_left]
    rfl
  rw [next, correct_back, if_neg (lt_irrefl _), hasMore_back, if_pos (decide_eq_true (succ_pos _))]
  simp only [start_back, read, advance_back]
  rw [getElem?_append_right (le_refl _), Nat.sub_self]
  rfl

theorem next_behind (shared : Bool) {n : Nat} (behind : table.length < n) (key : Bytes) :
    (back (n + 1)).next shared table key =
      if 0 < table.length then (back table.length).next shared table key
      else (none, key, back 0, table) := by
  have corrected : (back (n + 1)).correct table.length = back table.length := by
    rw [correct_back, if_pos behind]
  cases size : table.length with
  | zero =>
    rw [size] at corrected
    rw [if_neg (lt_irrefl 0), next, size, corrected, hasMore_back, decide_eq_false (lt_irrefl 0)]
    rfl
  | succ last =>
    rw [size] at corrected
    have same : (back (last + 1)).correct (last + 1) = back (last + 1) := by
      rw [correct_back, if_neg (not_lt.mpr last.le_succ)]
    rw [if_pos last.succ_pos, next, next, size, corrected, same]

end RegistryIterator

namespace RegistryTable

open RegistryIterator

variable {ω : Type}

def Named (table : Slots (Option ω)) (o : ω) : Prop := ∀ slot ∈ table, slot.2 = some o → slot.1 ≠ []

variable {table : Slots (Option ω)} {n : Nat}

theorem removeKey_of_entry (keysOk : table.KeysOk) {slot : Bytes × Option ω}
    (here : table[n]? = some slot) (named : slot.1 ≠ []) :
    table.removeKey slot.1 = table.eraseIdx n := by
  have nulFree := keysOk.nulFree_name slot (mem_of_getElem? here)
  have carried : table.keyOf n = slot.1 := by
    rw [Slots.keyOf, here]
    rfl
  exact Slots.removeKey_of_findIndex ((keysOk.findIndex_eq_some_iff nulFree named n).mpr carried)

theorem keysOk_of_sublist {other : Slots (Option ω)}
    (keysOk : table.KeysOk) (sub : other.Sublist table) : other.KeysOk :=
  keysOk.of_sublist ((sub.map Prod.fst).filter _)

theorem split_at {slot : Bytes × Option ω} (here : table[n]? = some slot) :
    table.take (n + 1) = table.take n ++ [slot] ∧ table.drop n = slot :: table.drop (n + 1) := by
  rcases List.getElem?_eq_some_iff.mp here with ⟨inside, rfl⟩
  exact ⟨(take_append_getElem inside).symm, drop_eq_getElem_cons inside⟩

theorem eraseIdx_parts (inside : n < table.length) :
    (table.eraseIdx n).take n = table.take n ∧ (table.eraseIdx n).drop n = table.drop (n + 1) := by
  have front : (table.take n).length = n := length_take_of_le inside.le
  rw [eraseIdx_eq_take_drop_succ]
  exact ⟨take_left' front, drop_left' front⟩

variable [DecidableEq ω]

def without (o : ω) (table : Slots (Option ω)) : Slots (Option ω) :=
  table.filter fun slot => slot.2 ≠ some o

theorem without_append (o : ω) (front tail : Slots (Option ω)) :
    without o (front ++ tail) = without o front ++ without o tail :=
  filter_append _ _

theorem without_cons_self (name : Bytes) (o : ω) (tail : Slots (Option ω)) :
    without o ((name, some o) :: tail) = without o tail :=
  filter_cons_of_neg (by simp)

theorem without_sublist (o : ω) (table : Slots (Option ω)) : (without o table).Sublist table :=
  filter_sublist

theorem removeAliasesLoop_eq (shared : Bool) {o : ω} (inside : n ≤ table.length)
    (keysOk : table.KeysOk) (named : Named table o) :
    removeAliasesLoop shared o (back n) table = without o (table.take n) ++ table.drop n := by
  induction n generalizing table with
  | zero =>
    rw [removeAliasesLoop, hasMore_back, dif_neg (by decide), take_zero, drop_zero]
    rfl
  | succ n ih =>
    have here : table[n]? = some table[n] := getElem?_eq_getElem inside
    rcases split_at here with ⟨front, tail⟩
    rw [removeAliasesLoop, hasMore_back,
      dif_pos (decide_eq_true n.succ_pos), next_inside shared here, front]
    simp only []
    by_cases found : table[n].2 = some o
    · have erased := eraseIdx_parts inside
      have stillNamed : Named (table.eraseIdx n) o := fun slot member =>
        named slot ((eraseIdx_sublist table n).subset member)
      have shorter : n ≤ (table.eraseIdx n).length := by
        rw [length_eraseIdx_of_lt inside]
        exact le_sub_one_of_lt inside
      have gone : without o [table[n]] = [] := filter_eq_nil_iff.mpr (by simpa using found)
      rw [if_pos found, removeKey_of_entry keysOk here (named _ (getElem_mem inside) found),
        ih shorter (keysOk_of_sublist keysOk (eraseIdx_sublist _ _)) stillNamed, erased.1, erased.2,
        without_append, gone, append_nil]
    · have stays : without o [table[n]] = [table[n]] :=
        filter_eq_self.mpr (by simpa using found)
      rw [if_neg found, ih (le_of_succ_le inside) keysOk named, tail,
        without_append, stays, append_assoc]
      rfl

theorem unregister_eq (shared : Bool) {o : ω} {name : Bytes} (keysOk : table.KeysOk)
    (named : Named table o) (here : table[n]? = some (name, some o)) :
    unregisterRegisterableObject shared table name = without o table := by
  have member := mem_of_getElem? here
  have unnamed := named _ member rfl
  have inside : n < table.length := (List.getElem?_eq_some_iff.mp here).1
  have nulFree := keysOk.nulFree_name _ member
  have found : find table name = some o := by
    have looked := (keysOk.lookup_eq_some_iff nulFree unnamed _).mpr member
    rw [find, table.isDefined_eq, looked]
    rfl
  have erased : table.removeKey name = table.take n ++ table.drop (n + 1) := by
    rw [removeKey_of_entry keysOk here unnamed, eraseIdx_eq_take_drop_succ]
  have sub : (table.take n ++ table.drop (n + 1)).Sublist table := by
    rw [← eraseIdx_eq_take_drop_succ]
    exact eraseIdx_sublist table n
  have whole : table = table.take n ++ (name, some o) :: table.drop (n + 1) := by
    rw [← (split_at here).2, take_append_drop]
  calc unregisterRegisterableObject shared table name
      = removeAliases shared o (table.take n ++ table.drop (n + 1)) := by
        rw [unregisterRegisterableObject, found, erased]
    _ = without o (table.take n ++ table.drop (n + 1)) := by
        rw [removeAliases, new_backward, removeAliasesLoop_eq shared
          (le_refl _) (keysOk_of_sublist keysOk sub)
          (fun slot inner => named slot (sub.subset inner)),
          take_length, drop_length, append_nil]
    _ = without o table := by
        conv_rhs => rw [whole]
        rw [without_append, without_append, without_cons_self]

/-! ## Entries without a name -/

section Unnamed

variable {slot : Bytes × Option ω}

theorem count_removeKey (unnamed : slot.1 = []) (table : Slots (Option ω)) (name : Bytes) :
    (table.removeKey name).count slot = table.count slot := by
  cases found : table.findIndex name with
  | none => rw [Slots.removeKey_of_none found]
  | some n =>
    have erased : table.removeKey name = table.take n ++ table.drop (n + 1) := by
      rw [Slots.removeKey_of_findIndex found, eraseIdx_eq_take_drop_succ]
    rw [Slots.findIndex] at found
    split at found
    · cases found
    rename_i named
    rcases findIdx?_eq_some_iff_getElem.mp found with ⟨inside, carries, -⟩
    have here : table[n]? = some table[n] := getElem?_eq_getElem inside
    have other : table[n] ≠ slot := by
      intro same
      rw [decide_eq_true_eq, same, unnamed] at carries
      exact named carries.symm
    have parts := take_append_drop n table
    rw [(split_at here).2] at parts
    rw [erased]
    conv_rhs => rw [← parts]
    rw [count_append, count_append, count_cons_of_ne other]

theorem count_next (shared : Bool) (ri : RegistryIterator)
    (table : Slots (Option ω)) (key : Bytes) :
    table.count slot ≤ (ri.next shared table key).2.2.2.count slot := by
  rw [RegistryIterator.next]
  split
  · simp only [expand]
    split
    · rw [count_append]
      exact le_add_right _ _
    · exact le_refl _
  · exact le_refl _

variable (unnamed : slot.1 = [])
include unnamed

theorem count_removeAliasesLoop (shared : Bool)
    (o : ω) (ri : RegistryIterator) (table : Slots (Option ω)) :
    table.count slot ≤ (removeAliasesLoop shared o ri table).count slot := by
  induction ri, table using removeAliasesLoop.induct shared o with
  | case1 ri table more turn ih =>
    rw [removeAliasesLoop, dif_pos more]
    refine le_trans (count_next shared ri table []) (le_trans (le_of_eq ?_) ih)
    split
    · rw [count_removeKey unnamed]
    · rfl
  | case2 ri table ended =>
    rw [removeAliasesLoop, dif_neg ended]

theorem count_unregister (shared : Bool)
    (table : Slots (Option ω)) (name : Bytes) :
    table.count slot ≤ (unregisterRegisterableObject shared table name).count slot := by
  rw [unregisterRegisterableObject]
  split
  · rw [← count_removeKey unnamed table name]
    exact count_removeAliasesLoop unnamed shared _ _ _
  · exact le_refl _

theorem count_doTerminateLoop (shared : Bool)
    (isStatic : ω → Bool) (ri : RegistryIterator) (table : Slots (Option ω)) (name : Bytes) :
    table.count slot ≤ (doTerminateLoop shared isStatic ri table name).2.count slot := by
  induction ri, table, name using
      doTerminateLoop.induct shared isStatic with
  | case1 ri table name more turn empty ih =>
    rw [doTerminateLoop, dif_pos more]
    simp only [turn] at empty ih
    simp only [empty]
    exact le_trans (count_next shared ri table name) ih
  | case2 ri table name more turn ro object static ih =>
    rw [doTerminateLoop, dif_pos more]
    simp only [turn] at object ih
    simp only [object, if_pos static]
    exact le_trans (count_next shared ri table name) ih
  | case3 ri table name more turn ro object dynamic ih =>
    rw [doTerminateLoop, dif_pos more]
    simp only [turn] at object ih
    simp only [object, if_neg dynamic]
    exact le_trans (count_next shared ri table name)
      (le_trans (count_unregister unnamed shared _ _) ih)
  | case4 ri table name ended =>
    rw [doTerminateLoop, dif_neg ended]

end Unnamed

end RegistryTable

/-!
## Removing while iterating
-/

namespace RegistryIterator

variable {ω : Type}

inductive Call where
  | next
  | removeNext
  deriving DecidableEq, Repr

def make (shared : Bool) (call : Call) (this : RegistryIterator)
    (table : Slots (Option ω)) (key : Bytes) :
    Option ω × Bytes × RegistryIterator × Slots (Option ω) :=
  match call with
  | .next => this.next shared table key
  | .removeNext => this.removeNext shared table key

/-- Calls one after the other, as long as the iterator has more: what they
return, the iterator and the table. -/
def sweep (shared : Bool) (this : RegistryIterator) (table : Slots (Option ω)) (key : Bytes) :
    List Call → List (Option ω × Bytes) × RegistryIterator × Slots (Option ω)
  | [] => ([], this, table)
  | call :: calls =>
    if this.hasMore then
      let (obj, key, this, table) := make shared call this table key
      let (returned, ended) := sweep shared this table key calls
      ((obj, key) :: returned, ended)
    else ([], this, table)

def inDirection (forward : Bool) (slots : Slots (Option ω)) : Slots (Option ω) :=
  if forward then slots else slots.reverse

/-- The entries that no `RemoveNext` returned. -/
def survivors : Slots (Option ω) → List Call → Slots (Option ω)
  | slots, [] => slots
  | [], _ :: _ => []
  | slot :: slots, .next :: calls => slot :: survivors slots calls
  | _ :: slots, .removeNext :: calls => survivors slots calls

/-- A sweep returns every slot once, and removes those it was told to. -/
structure SweepsAll (shared forward : Bool) (table : Slots (Option ω))
    (key : Bytes) (calls : List Call) : Prop where
  returned : (sweep shared (new table forward) table key calls).1 =
    (inDirection forward table).map fun slot => (slot.2, slot.1)
  ended : (sweep shared (new table forward) table key calls).2.1.hasMore = false
  removed : (sweep shared (new table forward) table key calls).2.2 =
    inDirection forward (survivors (inDirection forward table) calls)

def leaves : Slots (Option ω) → List Call → Slots (Option ω)
  | slots, [] => slots
  | [], _ :: _ => []
  | slot :: slots, call :: calls =>
    if call = .next ∨ slots = [] then slot :: leaves slots calls
    else leaves slots calls

/-- The iterator between the entries that it left behind and those that are
to come, both in its direction.  Forwards its end may be one behind the table
after an entry was removed. -/
inductive Between (kept rest : Slots (Option ω)) :
    Bool → RegistryIterator → Slots (Option ω) → Prop where
  | forward (fEnd : Int) (nofun' : true = false → fEnd = 0)
      (behind : ((kept ++ rest).length : Int) - 1 ≤ fEnd)
      (last : rest = [] → fEnd = ((kept ++ rest).length : Int) - 1) :
      Between kept rest true ⟨true, kept.length, fEnd, nofun'⟩ (kept ++ rest)
  | backward : Between kept rest false (back rest.length) (rest.reverse ++ kept.reverse)

variable {kept rest table : Slots (Option ω)} {forward : Bool} {this : RegistryIterator}

theorem Between.table_eq (between : Between kept rest forward this table) :
    table = inDirection forward (kept ++ rest) := by
  cases between with
  | forward fEnd nofun' behind last => rfl
  | backward => exact reverse_append.symm

theorem Between.hasMore (between : Between kept rest forward this table) :
    this.hasMore = decide (rest ≠ []) := by
  cases between with
  | forward fEnd nofun' behind last =>
    simp only [RegistryIterator.hasMore, if_true]
    apply decide_eq_decide.mpr
    rw [length_append] at behind last
    cases rest with
    | nil =>
      have ends := last rfl
      rw [length_nil] at ends
      simp only [ne_eq, not_true_eq_false, iff_false]
      omega
    | cons slot rest =>
      rw [length_cons] at behind
      simp only [ne_eq, cons_ne_nil, not_false_eq_true, iff_true]
      omega
  | backward =>
    rw [hasMore_back]
    apply decide_eq_decide.mpr
    exact length_pos_iff

theorem between_new (table : Slots (Option ω)) (forward : Bool) :
    Between [] (inDirection forward table) forward (new table forward) table := by
  cases forward with
  | true =>
    exact .forward _ nofun (Int.le_refl _) fun _ => rfl
  | false =>
    have between := @Between.backward _ [] table.reverse
    rw [reverse_nil, append_nil, reverse_reverse, length_reverse, ← new_backward table] at between
    exact between

theorem correct_forward {size start : Nat} {fEnd : Int}
    {nofun' : true = false → fEnd = 0} (inside : start < size) (behind : (size : Int) - 1 ≤ fEnd) :
    (⟨true, start, fEnd, nofun'⟩ : RegistryIterator).correct size =
      ⟨true, start, (size : Int) - 1, nofun⟩ := by
  have starts : ¬ (size : Int) < start := by omega
  have ends : (if 0 < fEnd ∧ (size : Int) - 1 < fEnd then (size : Int) - 1
      else fEnd) = (size : Int) - 1 := by
    split
    · rfl
    · omega
  simp only [correct, starts, and_false, if_false, ends]

theorem getElem?_front (front : Slots (Option ω)) (slot : Bytes × Option ω)
    (rest : Slots (Option ω)) :
    (front ++ slot :: rest)[front.length]? = some slot := by
  rw [getElem?_append_right (le_refl _), Nat.sub_self]
  rfl

variable {slot : Bytes × Option ω}

theorem Between.next
    (between : Between kept (slot :: rest) forward this table) (shared : Bool) (key : Bytes) :
    ∃ after, this.next shared table key = (slot.2, slot.1, after, table) ∧
      Between (kept ++ [slot]) rest forward after table := by
  cases between with
  | forward fEnd nofun' behind last =>
    have text : kept ++ slot :: rest = kept ++ [slot] ++ rest :=
      (append_assoc kept [slot] rest).symm
    have inside : kept.length < (kept ++ slot :: rest).length := by
      rw [length_append, length_cons]
      omega
    have more : (⟨true, kept.length, ((kept ++ slot :: rest).length : Int) -
        1, nofun⟩ : RegistryIterator).hasMore = true := by
      simp only [RegistryIterator.hasMore, if_true, decide_eq_true_eq]
      omega
    refine ⟨⟨true, ((kept ++ [slot]).length : Nat),
      ((kept ++ slot :: rest).length : Int) - 1, nofun⟩, ?_, ?_⟩
    · rw [RegistryIterator.next, correct_forward inside behind, if_pos more]
      simp only [expand_of_lt inside, Int.toNat_natCast, getElem?_front, Option.getD_some, advance,
        if_true, ite_self, length_append, length_singleton, Int.natCast_add, Int.natCast_one]
    · rw [text]
      exact .forward _ nofun (Int.le_refl _) fun _ => rfl
  | backward =>
    have text : (slot :: rest).reverse ++ kept.reverse = rest.reverse ++ slot :: kept.reverse := by
      rw [reverse_cons, append_assoc, singleton_append]
    have here : (rest.reverse ++ slot :: kept.reverse)[rest.length]? = some slot := by
      rw [← length_reverse]
      exact getElem?_front rest.reverse slot kept.reverse
    refine ⟨back rest.length, ?_, ?_⟩
    · rw [text]
      exact next_inside shared here key
    · have between := @Between.backward _ (kept ++ [slot]) rest
      rw [reverse_append, reverse_singleton, singleton_append] at between
      rw [text]
      exact between

theorem Between.removeNext
    (between : Between kept (slot :: rest) forward this table) (more : rest ≠ []) (key : Bytes) :
    ∃ after removed, this.removeNext true table key = (slot.2, slot.1, after, removed) ∧
      Between kept rest forward after removed := by
  rcases between.next true key with ⟨after, turn, passed⟩
  have stillMore := passed.hasMore
  rw [decide_eq_true more] at stillMore
  rw [RegistryIterator.removeNext, turn]
  dsimp only
  rw [if_pos stillMore]
  cases passed with
  | forward fEnd nofun' behind last =>
    have place : ((kept ++ [slot]).length : Int) - 1 = kept.length := by
      rw [length_append, length_singleton]
      omega
    have gone : Slots.remove ((kept.length : Nat) : Int)
        (kept ++ [slot] ++ rest) = kept ++ rest := by
      rw [Slots.remove, if_pos (Int.natCast_nonneg _), Int.toNat_natCast,
        append_assoc, eraseIdx_append_of_length_le (le_refl _), Nat.sub_self]
      rfl
    simp only [if_true, place, gone]
    refine ⟨_, _, rfl, .forward _ nofun' ?_ fun none' => absurd none' more⟩
    rw [append_assoc, length_append, length_append] at behind
    rw [length_append]
    simp only [length_singleton] at behind
    omega
  | backward =>
    have gone : Slots.remove ((rest.length : Nat) : Int)
        (rest.reverse ++ (kept ++ [slot]).reverse) = rest.reverse ++ kept.reverse := by
      rw [Slots.remove, if_pos (Int.natCast_nonneg _), Int.toNat_natCast,
        eraseIdx_append_of_length_le (le_of_eq length_reverse), length_reverse, Nat.sub_self,
        reverse_append]
      rfl
    have place : (back rest.length).fStart + 1 = rest.length := Int.sub_add_cancel _ _
    have backward : (back rest.length).fForward = false := rfl
    simp only [backward, Bool.false_eq_true, if_false, if_true, place, gone]
    exact ⟨_, _, rfl, .backward⟩

theorem Between.removeNext_last
    (between : Between kept [slot] forward this table) (shared : Bool) (key : Bytes) :
    this.removeNext shared table key = this.next shared table key := by
  rcases between.next shared key with ⟨after, turn, passed⟩
  have ended := passed.hasMore
  rw [decide_eq_false (not_not.mpr rfl)] at ended
  rw [RegistryIterator.removeNext, turn]
  dsimp only
  rw [ended]
  rfl

theorem Between.make (between : Between kept (slot :: rest) forward this table)
    {shared : Bool} {call : Call} (shares : shared = true ∨ call = .next) (key : Bytes) :
    ∃ after left' kept', RegistryIterator.make shared call this table key =
        (slot.2, slot.1, after, left') ∧
      Between kept' rest forward after left' ∧
      kept' = if call = .next ∨ rest = [] then kept ++ [slot] else kept := by
  cases call with
  | next =>
    rcases between.next shared key with ⟨after, turn, passed⟩
    exact ⟨after, table, _, turn, passed, (if_pos (.inl rfl)).symm⟩
  | removeNext =>
    have isShared : shared = true := shares.resolve_right nofun
    subst isShared
    by_cases last : rest = []
    · subst last
      rcases between.next true key with ⟨after, turn, passed⟩
      exact ⟨after, table, _, (between.removeNext_last true key).trans turn,
        passed, (if_pos (.inr rfl)).symm⟩
    · rcases between.removeNext last key with ⟨after, removed, turn, passed⟩
      have neither : ¬(Call.removeNext = .next ∨ rest = []) := by
        rw [not_or]
        exact ⟨nofun, last⟩
      exact ⟨after, removed, _, turn, passed, (if_neg neither).symm⟩

variable {calls : List Call}

theorem Between.sweep (between : Between kept rest forward this table) {shared : Bool}
    (complete : calls.length = rest.length)
    (shares : shared = true ∨ ∀ call ∈ calls, call = .next) (key : Bytes) :
    (RegistryIterator.sweep shared this table key calls).1 =
        rest.map (fun slot => (slot.2, slot.1)) ∧
      (RegistryIterator.sweep shared this table key calls).2.1.hasMore = false ∧
      (RegistryIterator.sweep shared this table key calls).2.2 =
        inDirection forward (kept ++ leaves rest calls) := by
  induction calls generalizing kept rest table this key with
  | nil =>
    have empty : rest = [] := eq_nil_of_length_eq_zero complete.symm
    subst empty
    have ended := between.hasMore
    rw [decide_eq_false (not_not.mpr rfl)] at ended
    exact ⟨rfl, ended, between.table_eq⟩
  | cons call calls ih =>
    cases rest with
    | nil => cases complete
    | cons slot rest =>
      have more := between.hasMore
      rw [decide_eq_true (cons_ne_nil slot rest)] at more
      have sharesHere : shared = true ∨ call = .next :=
        shares.imp_right fun all => all call mem_cons_self
      have sharesLater : shared = true ∨ ∀ call ∈ calls, call = .next :=
        shares.imp_right fun all other member =>
          all other (mem_cons_of_mem call member)
      rcases between.make sharesHere key with ⟨after, left', kept', turn, passed, keeps⟩
      rcases ih passed (Nat.succ.inj complete) sharesLater slot.1 with ⟨returned, ended, removed⟩
      have whole : kept' ++ leaves rest calls = kept ++ leaves (slot :: rest) (call :: calls) := by
        rw [keeps, leaves]
        split
        · rw [append_assoc, singleton_append]
        · rfl
      rw [RegistryIterator.sweep, if_pos more, turn]
      dsimp only
      rw [returned, ← whole]
      exact ⟨rfl, ended, removed⟩

variable {slots : Slots (Option ω)}

theorem leaves_append (complete : calls.length = slots.length) :
    leaves slots calls = survivors slots calls ++
      if calls.getLast? = some .removeNext then slots.getLast?.toList else [] := by
  induction calls generalizing slots with
  | nil => simp [leaves, survivors]
  | cons call calls ih =>
    cases slots with
    | nil => cases complete
    | cons slot slots =>
      have shorter := Nat.succ.inj complete
      cases calls with
      | nil =>
        have empty : slots = [] := eq_nil_of_length_eq_zero shorter.symm
        subst empty
        cases call <;> rfl
      | cons second calls =>
        have rest := ih shorter
        rcases slots with _ | ⟨other, slots⟩
        · cases shorter
        rw [getLast?_cons_cons, getLast?_cons_cons]
        cases call with
        | next => rw [leaves, if_pos (.inl rfl), survivors, rest, cons_append]
        | removeNext => rw [leaves, if_neg (by simp), survivors, rest]

theorem leaves_eq
    (complete : calls.length = slots.length) (notLast : calls.getLast? ≠ some .removeNext) :
    leaves slots calls = survivors slots calls := by
  rw [leaves_append complete, if_neg notLast, append_nil]

theorem length_leaves_last
    (complete : calls.length = slots.length) (last : calls.getLast? = some .removeNext) :
    (leaves slots calls).length = (survivors slots calls).length + 1 := by
  rw [leaves_append complete, if_pos last, length_append]
  rcases slots with _ | ⟨slot, slots⟩
  · rw [length_eq_zero_iff.mp complete] at last
    cases last
  · rw [getLast?_cons]
    rfl

theorem length_survivors_le (slots : Slots (Option ω)) (calls : List Call) :
    (survivors slots calls).length ≤ slots.length := by
  induction calls generalizing slots with
  | nil => rw [survivors]
  | cons call calls ih =>
    cases slots with
    | nil => rw [survivors]
    | cons slot slots =>
      have shorter := ih slots
      cases call with
      | next => exact succ_le_succ shorter
      | removeNext => exact le_succ_of_le shorter

theorem length_survivors_lt
    (complete : calls.length = slots.length) (removes : .removeNext ∈ calls) :
    (survivors slots calls).length < slots.length := by
  induction calls generalizing slots with
  | nil => cases removes
  | cons call calls ih =>
    cases slots with
    | nil => cases complete
    | cons slot slots =>
      cases call with
      | next =>
        have later : Call.removeNext ∈ calls := (mem_cons.mp removes).resolve_left nofun
        exact succ_lt_succ (ih (Nat.succ.inj complete) later)
      | removeNext =>
        exact lt_succ_of_le (length_survivors_le slots calls)

theorem next_unshared (this : RegistryIterator) (table : Slots (Option ω))
    (key : Bytes) : (this.next false table key).2.2.2 = table := by
  rw [next]
  dsimp only
  split
  · rfl
  · rfl

theorem make_unshared (call : Call) (this : RegistryIterator)
    (table : Slots (Option ω)) (key : Bytes) :
    (make false call this table key).2.2.2 = table := by
  have unchanged := next_unshared this table key
  cases call with
  | next => exact unchanged
  | removeNext =>
    rw [make, removeNext]
    dsimp only
    split
    · exact unchanged
    · exact unchanged

theorem sweep_unshared (this : RegistryIterator) (table : Slots (Option ω))
    (key : Bytes) (calls : List Call) :
    (sweep false this table key calls).2.2 = table := by
  induction calls generalizing this table key with
  | nil => rfl
  | cons call calls ih =>
    rw [sweep]
    split
    · have later := ih (make false call this table key).2.2.1
        (make false call this table key).2.2.2 (make false call this table key).2.1
      rw [make_unshared] at later
      dsimp only
      rw [make_unshared]
      exact later
    · rfl

theorem length_inDirection (forward : Bool) (slots : Slots (Option ω)) :
    (inDirection forward slots).length = slots.length := by
  cases forward with
  | true => rfl
  | false => exact length_reverse

/-- As many calls as there are entries return all of them and remove those
that `RemoveNext` returned exactly if it is not called, or the iterator shares
the table and the last entry is not returned by it. -/
theorem sweepsAll_iff {shared forward : Bool} {table : Slots (Option ω)}
    {key : Bytes} {calls : List Call} (complete : calls.length = table.length) :
    SweepsAll shared forward table key calls ↔
      (∀ call ∈ calls, call = .next) ∨ (shared = true ∧ calls.getLast? ≠ some .removeNext) := by
  have between := between_new table forward
  have complete' : calls.length = (inDirection forward table).length := by
    rw [length_inDirection]
    exact complete
  constructor
  · intro sweeps
    by_contra neither
    rw [not_or, not_and_or, not_not] at neither
    rcases neither with ⟨removes, fails⟩
    have some' : Call.removeNext ∈ calls := by
      by_contra none'
      apply removes
      intro call member
      cases call with
      | next => rfl
      | removeNext => exact absurd member none'
    have fewer := length_survivors_lt complete' some'
    have removed := congrArg List.length sweeps.removed
    rw [length_inDirection] at removed
    cases shared with
    | false =>
      rw [sweep_unshared] at removed
      rw [length_inDirection] at fewer
      omega
    | true =>
      have last := fails.resolve_left (not_not.mpr rfl)
      rw [(between.sweep complete' (.inl rfl) key).2.2, nil_append,
        length_inDirection, length_leaves_last complete' last] at removed
      omega
  · intro holds
    have shares : shared = true ∨ ∀ call ∈ calls, call = .next :=
      holds.elim .inr fun both => .inl both.1
    have notLast : calls.getLast? ≠ some .removeNext := by
      rcases holds with onlyNext | ⟨-, notLast⟩
      · intro last
        cases onlyNext _ (mem_of_getLast? last)
      · exact notLast
    rcases between.sweep complete' shares key with ⟨returned, ended, removed⟩
    rw [nil_append, leaves_eq complete' notLast] at removed
    exact ⟨returned, ended, removed⟩

theorem sweepsAll_iff_two :
    SweepsAll true true [([97], some 0), ([98], some 1)] []
        [.removeNext, .next] ↔
      (∀ call ∈ [Call.removeNext, Call.next], call = .next) ∨
        (true = true ∧ [Call.removeNext, Call.next].getLast? ≠ some .removeNext) :=
  sweepsAll_iff rfl

/-- The only entry of a registry is returned and stays. -/
theorem not_sweepsAll :
    ¬∀ (forward : Bool) (table : Slots (Option Nat)) (calls : List Call),
      calls.length = table.length → SweepsAll true forward table [] calls := by
  intro always
  have removed := (always true [([97], some 0)] [.removeNext] rfl).removed
  have stays : (sweep true (new [([97], some 0)] true) [([97], some 0)] []
      [.removeNext]).2.2 = [([97], some 0)] := by decide +kernel
  rw [stays] at removed
  cases removed

end RegistryIterator

end Coast
