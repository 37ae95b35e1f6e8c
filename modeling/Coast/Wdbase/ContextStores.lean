import Coast.Base.Anything
import Coast.Library.TurnLoop
import Mathlib.Algebra.Group.Nat.Even
import Mathlib.Data.List.GetD
import Mathlib.Data.List.TakeDrop

/-!
# The stores and interfaces on a context

A `Context` has a stack of look-up interfaces and a stack of stores.  Each is
a list of keys beside a list of entries, with its length kept in a number.
-/

namespace Coast

open List

/-- `["Keys"]` and `["Stack"]` of a stack, and the size beside them. -/
structure ContextStack (ε : Type) where
  keys : List Bytes
  stack : List ε
  size : Int

namespace ContextStack

variable {ε : Type}

def empty : ContextStack ε := ⟨[], [], 0⟩

def push (s : ContextStack ε) (key : Bytes) (entry : ε) : ContextStack ε :=
  ⟨s.keys ++ [cstr key], s.stack ++ [entry], s.size + 1⟩

def removeAt (s : ContextStack ε) (index : Nat) : ContextStack ε :=
  ⟨s.keys.eraseIdx index, s.stack.eraseIdx index, s.size - 1⟩

def findBelow (keys : List Bytes) (key : Bytes) : Nat → Int
  | 0 => -1
  | i + 1 =>
    if cstr (keys.getD i []) = cstr key then i else findBelow keys key i

def findIndex (s : ContextStack ε) (key : Option Bytes) (lStartIdx : Int) : Int :=
  match key with
  | none => -1
  | some key =>
    let sz := s.keys.length
    findBelow s.keys key (if lStartIdx < 0 ∨ (sz : Int) < lStartIdx then sz else lStartIdx.toNat)

/-- The keys and the entries are as many as the size says. -/
structure Aligned (s : ContextStack ε) : Prop where
  keys : (s.keys.length : Int) = s.size
  stack : (s.stack.length : Int) = s.size

variable {s : ContextStack ε}

theorem Aligned.push (aligned : s.Aligned) (key : Bytes) (entry : ε) :
    (s.push key entry).Aligned := by
  have keys := aligned.keys
  have stack := aligned.stack
  constructor
  · simp only [ContextStack.push, length_append, length_singleton]
    omega
  · simp only [ContextStack.push, length_append, length_singleton]
    omega

theorem Aligned.removeAt (aligned : s.Aligned) {index : Nat}
    (inside : (index : Int) < s.size) : (s.removeAt index).Aligned := by
  have keys := aligned.keys
  have stack := aligned.stack
  constructor
  · simp only [ContextStack.removeAt]
    rw [length_eraseIdx_of_lt (by omega)]
    omega
  · simp only [ContextStack.removeAt]
    rw [length_eraseIdx_of_lt (by omega)]
    omega

theorem findBelow_lt (keys : List Bytes) (key : Bytes) (n : Nat) : findBelow keys key n < n := by
  induction n with
  | zero =>
    rw [findBelow]
    omega
  | succ n ih =>
    rw [findBelow]
    split
    · omega
    · omega

theorem findIndex_lt (s : ContextStack ε) (key : Option Bytes)
    (start : Int) : s.findIndex key start < s.keys.length := by
  cases key with
  | none =>
    rw [findIndex]
    omega
  | some key =>
    have below := findBelow_lt s.keys key
      (if start < 0 ∨ (s.keys.length : Int) < start then s.keys.length else start.toNat)
    rw [findIndex]
    split at below
    · rename_i outside
      rwa [if_pos outside]
    · rename_i inside
      rw [if_neg inside]
      omega

theorem findIndex_lt_start (s : ContextStack ε) (key : Option Bytes)
    {start : Int} (nonneg : 0 ≤ start) : s.findIndex key start < start := by
  cases key with
  | none =>
    rw [findIndex]
    omega
  | some key =>
    have below := findBelow_lt s.keys key
      (if start < 0 ∨ (s.keys.length : Int) < start then s.keys.length else start.toNat)
    rw [findIndex]
    split at below
    · rename_i outside
      rw [if_pos outside]
      omega
    · rename_i inside
      rw [if_neg inside]
      omega

end ContextStack

/-- What stands on the stack of stores. -/
inductive StoreEntry (ι : Type) where
  | store (any : Anything)
  /-- A look-up adapter, as an `IFAObject`. -/
  | object (li : ι)

/-- A `Context`, as far as it has stacks; `ι` are the look-up interfaces. -/
structure ContextStores (ι : Type) where
  fLookupStack : ContextStack ι
  fStore : ContextStack (StoreEntry ι)

def ensureArrayImpl : Anything → Anything
  | .array slots => .array slots
  | any => .array [([], any)]

namespace ContextStores

open TurnLoop
open ContextStack (findBelow findBelow_lt)

variable {ι : Type}

def pushStore (ctx : ContextStores ι) (key : Option Bytes) (store : Anything) : ContextStores ι :=
  match key, store with
  | none, _ => ctx
  | _, .null => ctx
  | some key, store =>
    { ctx with
      fStore := ctx.fStore.push key (.store (ensureArrayImpl store)) }

def create : ContextStores ι := pushStore ⟨.empty, .empty⟩ (some (lit "tmp")) (.array [])

section Operations

/- Whether an interface is an adapter of an Anything. -/
variable (isLookupAdapter : ι → Bool)

def push (ctx : ContextStores ι) (key : Option Bytes) (li : Option ι) : ContextStores ι :=
  match key, li with
  | some key, some li =>
    if isLookupAdapter li then
      { ctx with fStore := ctx.fStore.push key (.object li) }
    else { ctx with fLookupStack := ctx.fLookupStack.push key li }
  | _, _ => ctx

def pop (ctx : ContextStores ι) : ContextStores ι :=
  if 0 < ctx.fLookupStack.size then
    { ctx with fLookupStack := ctx.fLookupStack.removeAt (ctx.fLookupStack.size - 1).toNat }
  else ctx

def popStore (ctx : ContextStores ι) : ContextStores ι :=
  if 1 < ctx.fStore.size then
    { ctx with fStore := ctx.fStore.removeAt (ctx.fStore.size - 1).toNat }
  else ctx

def remove (ctx : ContextStores ι) (key : Option Bytes) : ContextStores ι :=
  let index := ctx.fLookupStack.findIndex key (-1)
  if 0 ≤ index then
    { ctx with fLookupStack := ctx.fLookupStack.removeAt index.toNat }
  else ctx

/-- The top entry under this key is replaced, or a new one is pushed. -/
def replace (ctx : ContextStores ι) (key : Option Bytes) (li : Option ι) : ContextStores ι :=
  match li with
  | none => ctx
  | some li =>
    let index := ctx.fLookupStack.findIndex key (-1)
    if 0 ≤ index then
      { ctx with fLookupStack :=
          { ctx.fLookupStack with
            stack := ctx.fLookupStack.stack.set index.toNat li } }
    else push isLookupAdapter ctx key (some li)

/-- A call on the stores of a context. -/
inductive Operation (ι : Type) where
  | push (key : Option Bytes) (li : Option ι)
  | pushStore (key : Option Bytes) (store : Anything)
  | pop
  | popStore
  | remove (key : Option Bytes)
  | replace (key : Option Bytes) (li : Option ι)

def perform (ctx : ContextStores ι) : Operation ι → ContextStores ι
  | .push key li => push isLookupAdapter ctx key li
  | .pushStore key store => pushStore ctx key store
  | .pop => pop ctx
  | .popStore => popStore ctx
  | .remove key => remove ctx key
  | .replace key li => replace isLookupAdapter ctx key li

def after (operations : List (Operation ι)) : ContextStores ι :=
  operations.foldl (perform isLookupAdapter) create

end Operations

/-- One turn down the stack, to the next store under this key. -/
def storeTurn (ctx : ContextStores ι) (key : Option Bytes) (index : Int) : (Anything × Int) ⊕ Int :=
  if 0 ≤ index then
    let index := ctx.fStore.findIndex key index
    if 0 ≤ index then
      match ctx.fStore.stack[index.toNat]? with
      | some (.store any) => .inl (any, index)
      | _ => .inr (index - 1)
    else .inr (index - 1)
  else .inl (.null, index)

def intGetStore (ctx : ContextStores ι) (key : Option Bytes) : Anything × Int :=
  run (storeTurn ctx key) (fun index => (index + 1).toNat)
    (fun index => (.null, index)) ctx.fStore.size

variable {isLookupAdapter : ι → Bool} {ctx : ContextStores ι} {key : Bytes}

/-- Keys and entries go together, and the temporary store is at the bottom. -/
structure Inv (ctx : ContextStores ι) : Prop where
  lookups : ctx.fLookupStack.Aligned
  stores : ctx.fStore.Aligned
  tmpKey : ctx.fStore.keys.head? = some (lit "tmp")
  tmpStore : ctx.fStore.stack.head? = some (.store (.array []))

theorem create_inv : (create : ContextStores ι).Inv := ⟨⟨rfl, rfl⟩, ⟨rfl, rfl⟩, rfl, rfl⟩

section

variable (inv : ctx.Inv)
include inv

theorem Inv.pushEntry (key : Bytes) (entry : StoreEntry ι) :
    Inv { ctx with fStore := ctx.fStore.push key entry } := by
  refine ⟨inv.lookups, inv.stores.push key entry, ?_, ?_⟩
  · simp [ContextStack.push, head?_append, inv.tmpKey]
  · simp [ContextStack.push, head?_append, inv.tmpStore]

theorem Inv.pushStore (key : Option Bytes) (store : Anything) : (ctx.pushStore key store).Inv := by
  cases key with
  | none => exact inv
  | some key =>
    cases store with
    | null => exact inv
    | _ => exact inv.pushEntry key _

theorem Inv.push (key : Option Bytes) (li : Option ι) : (push isLookupAdapter ctx key li).Inv := by
  cases key with
  | none => exact inv
  | some key =>
    cases li with
    | none => exact inv
    | some li =>
      rw [ContextStores.push]
      split
      · exact inv.pushEntry key _
      · exact ⟨inv.lookups.push key li, inv.stores, inv.tmpKey, inv.tmpStore⟩

theorem Inv.removeLookup {index : Nat} (inside : (index : Int) < ctx.fLookupStack.size) :
    Inv { ctx with fLookupStack := ctx.fLookupStack.removeAt index } :=
  ⟨inv.lookups.removeAt inside, inv.stores, inv.tmpKey, inv.tmpStore⟩

theorem Inv.popStore : ctx.popStore.Inv := by
  rw [ContextStores.popStore]
  split
  · rename_i more
    have head : ∀ {α : Type} (list : List α) (index : Nat),
        0 < index → (list.eraseIdx index).head? = list.head? := by
      intro α list index positive
      cases list with
      | nil => rfl
      | cons a list =>
        cases index with
        | zero => exact absurd positive (Nat.lt_irrefl 0)
        | succ index => rfl
    have positive : 0 < (ctx.fStore.size - 1).toNat := by omega
    refine ⟨inv.lookups, inv.stores.removeAt (by omega), ?_, ?_⟩
    · exact (head _ _ positive).trans inv.tmpKey
    · exact (head _ _ positive).trans inv.tmpStore
  · exact inv

theorem Inv.perform (operation : Operation ι) : (perform isLookupAdapter ctx operation).Inv := by
  cases operation with
  | push key li => exact inv.push key li
  | pushStore key store => exact inv.pushStore key store
  | pop =>
    rw [ContextStores.perform, ContextStores.pop]
    split
    · exact inv.removeLookup (by omega)
    · exact inv
  | popStore => exact inv.popStore
  | remove key =>
    have below := ctx.fLookupStack.findIndex_lt key (-1)
    have keys := inv.lookups.keys
    rw [ContextStores.perform, ContextStores.remove]
    split
    · exact inv.removeLookup (by omega)
    · exact inv
  | replace key li =>
    cases li with
    | none => exact inv
    | some li =>
      rw [ContextStores.perform, ContextStores.replace]
      split
      · refine ⟨⟨inv.lookups.keys, ?_⟩, inv.stores, inv.tmpKey, inv.tmpStore⟩
        rw [length_set]
        exact inv.lookups.stack
      · exact inv.push key (some li)

end

theorem after_inv (operations : List (Operation ι)) : (after isLookupAdapter operations).Inv := by
  have all : ∀ ctx : ContextStores ι, ctx.Inv →
      (operations.foldl (ContextStores.perform isLookupAdapter) ctx).Inv := by
    induction operations with
    | nil => exact fun _ inv => inv
    | cons operation operations ih =>
      exact fun _ inv => ih _ (inv.perform operation)
  exact all create create_inv

/-! ## The search from the top -/

/-- The entries from the top, the key and the entry of each. -/
abbrev Entries (ι : Type) := List (Bytes × StoreEntry ι)

/-- What `IntGetStore` finds: below an adapter one entry is left out. -/
def search (key : Bytes) : Bool → Entries ι → Option (Anything × Nat)
  | _, [] => none
  | true, _ :: below => search key false below
  | false, (k, entry) :: below =>
    if cstr k = cstr key then
      match entry with
      | .store any => some (any, below.length)
      | .object _ => search key true below
    else search key false below

theorem search_cons (key k : Bytes) (entry : StoreEntry ι) (below : Entries ι) :
    search key false ((k, entry) :: below) =
      if cstr k = cstr key then
        match entry with
        | .store any => some (any, below.length)
        | .object _ => search key true below
      else search key false below :=
  rfl

def below (s : ContextStack (StoreEntry ι)) (n : Nat) : Entries ι :=
  ((s.keys.zip s.stack).take n).reverse

variable {s : ContextStack (StoreEntry ι)}

theorem below_succ {n : Nat} (aligned : s.Aligned) (inside : n < s.keys.length) :
    ∃ entry, s.stack[n]? = some entry ∧
      below s (n + 1) = (s.keys.getD n [], entry) :: below s n := by
  have keys := aligned.keys
  have stack := aligned.stack
  have alsoInside : n < s.stack.length := by omega
  refine ⟨s.stack[n], getElem?_eq_getElem alsoInside, ?_⟩
  have zipped : n < (s.keys.zip s.stack).length := by
    rw [length_zip]
    omega
  rw [below, take_succ_eq_append_getElem zipped, reverse_append,
    getElem_zip, getD_eq_getElem _ _ inside]
  rfl

def Gives : Option (Anything × Nat) → Anything × Int → Prop
  | some (any, i), result => result = (any, (i : Int))
  | none, result => result.2 < 0

theorem search_findBelow
    (aligned : s.Aligned) (key : Bytes) (n : Nat) (inside : n ≤ s.keys.length) :
    (findBelow s.keys key n = -1 ∧ search key false (below s n) = none) ∨
      ∃ i entry, i < n ∧ findBelow s.keys key n = (i : Int) ∧ s.stack[i]? = some entry ∧
        search key false (below s n) =
          match entry with
          | .store any => some (any, i)
          | .object _ => search key true (below s i) := by
  induction n with
  | zero => exact .inl ⟨rfl, rfl⟩
  | succ n ih =>
    rcases below_succ aligned inside with ⟨entry, here, whole⟩
    rw [findBelow, whole, search_cons]
    by_cases same : cstr (s.keys.getD n []) = cstr key
    · rw [if_pos same, if_pos same]
      have length : (below s n).length = n := by
        have keys := aligned.keys
        have stack := aligned.stack
        rw [below, length_reverse, length_take, length_zip]
        omega
      refine .inr ⟨n, entry, Nat.lt_succ_self n, rfl, here, ?_⟩
      cases entry with
      | store any =>
        dsimp only
        rw [length]
      | object li => rfl
    · rw [if_neg same, if_neg same]
      rcases ih (Nat.le_of_succ_le inside) with nothing | ⟨i, entry, lower, found, there, searched⟩
      · exact .inl nothing
      · exact .inr ⟨i, entry, Nat.lt_succ_of_lt lower, found, there, searched⟩

theorem search_skip (aligned : s.Aligned) (key : Bytes) {n : Nat} (inside : n < s.keys.length) :
    search key true (below s (n + 1)) = search key false (below s n) := by
  rcases below_succ aligned inside with ⟨entry, -, whole⟩
  rw [whole]
  rfl

theorem findIndex_eq (key : Bytes) {n : Nat} (inside : n ≤ s.keys.length) :
    s.findIndex (some key) n = findBelow s.keys key n := by
  rw [ContextStack.findIndex, if_neg (by omega), Int.toNat_natCast]

theorem ends_search (aligned : ctx.fStore.Aligned) (key : Bytes) :
    ∀ n ≤ ctx.fStore.keys.length, ∃ result, Ends (storeTurn ctx (some key)) (n : Int) result ∧
        Gives (search key false (below ctx.fStore n)) result := by
  intro n
  induction n using Nat.strong_induction_on with
  | _ n ih =>
    intro inside
    have turn : storeTurn ctx (some key) (n : Int) = (if 0 ≤ findBelow ctx.fStore.keys key n then
          match ctx.fStore.stack[
            (findBelow ctx.fStore.keys key n).toNat]? with
          | some (.store any) =>
            .inl (any, findBelow ctx.fStore.keys key n)
          | _ => .inr (findBelow ctx.fStore.keys key n - 1)
        else .inr (findBelow ctx.fStore.keys key n - 1)) := by
      rw [storeTurn, if_pos (Int.natCast_nonneg n), findIndex_eq key inside]
    have over_ : ∀ index : Int, index < 0 →
        Ends (storeTurn ctx (some key)) index (.null, index) := by
      intro index negative
      apply Ends.done
      rw [storeTurn, if_neg (by omega)]
    rcases search_findBelow aligned key n inside with
      ⟨missing, nothing⟩ | ⟨i, entry, lower, found, there, searched⟩
    · rw [missing] at turn
      rw [nothing]
      exact ⟨(.null, -1 - 1), .again turn (over_ _ (by decide)), by simp [Gives]⟩
    · rw [found, if_pos (Int.natCast_nonneg i), Int.toNat_natCast, there] at turn
      rw [searched]
      cases entry with
      | store any => exact ⟨(any, (i : Int)), .done turn, rfl⟩
      | object li =>
        cases i with
        | zero =>
          exact ⟨(.null, ((0 : Nat) : Int) - 1), .again turn (over_ _ (by decide)),
            by simp [Gives, below, search]⟩
        | succ m =>
          rw [show ((m + 1 : Nat) : Int) - 1 = (m : Int) by omega] at turn
          rcases ih m (by omega) (by omega) with ⟨result, ends, gives⟩
          dsimp only
          rw [search_skip aligned key (by omega)]
          exact ⟨result, .again turn ends, gives⟩

theorem storeTurn_decreases (ctx : ContextStores ι) (key : Option Bytes) :
    Decreases (storeTurn ctx key) fun index => (index + 1).toNat := by
  intro index next goesOn
  rw [storeTurn] at goesOn
  dsimp only at goesOn
  split at goesOn
  · rename_i nonneg
    have lower := ctx.fStore.findIndex_lt_start key nonneg
    have smaller : next = ctx.fStore.findIndex key index - 1 := by
      split at goesOn
      · split at goesOn
        · cases goesOn
        · exact (Sum.inr.inj goesOn).symm
      · exact (Sum.inr.inj goesOn).symm
    dsimp only
    omega
  · cases goesOn

/-! ## The topmost store -/

def lastRow (key : Bytes) : Entries ι → Nat
  | [] => 0
  | (k, _) :: above =>
    if lastRow key above = above.length ∧ cstr k = cstr key then
      above.length + 1
    else lastRow key above

theorem lastRow_le (key : Bytes) (above : Entries ι) : lastRow key above ≤ above.length := by
  induction above with
  | nil => exact Nat.le_refl 0
  | cons entry above ih =>
    rw [lastRow, length_cons]
    split
    · exact Nat.le_refl _
    · exact Nat.le_succ_of_le ih

theorem lastRow_eq (key : Bytes) (above : Entries ι) :
    lastRow key above =
      ((above.reverse.map Prod.fst).takeWhile fun k => cstr k = cstr key).length := by
  induction above with
  | nil => rfl
  | cons entry above ih =>
    obtain ⟨k, entry⟩ := entry
    rw [lastRow, ih, reverse_cons, map_append, takeWhile_append, length_map, length_reverse]
    by_cases all : ((above.reverse.map Prod.fst).takeWhile
        fun k => decide (cstr k = cstr key)).length = above.length
    · rw [if_pos all]
      by_cases same : cstr k = cstr key
      · rw [if_pos ⟨all, same⟩]
        simp [same]
      · rw [if_neg fun both => same both.2, all]
        simp [same]
    · rw [if_neg all, if_neg fun both => all both.1]

theorem even_lastRow_cons {key k : Bytes} (entry : StoreEntry ι)
    (next : Bytes × StoreEntry ι) (above : Entries ι) (same : cstr k = cstr key) :
    Even (lastRow key ((k, entry) :: next :: above)) ↔ Even (lastRow key above) := by
  have bound := lastRow_le key above
  have inner : lastRow key (next :: above) =
      if lastRow key above = above.length ∧ cstr next.1 = cstr key then
        above.length + 1
      else lastRow key above := rfl
  rw [lastRow, length_cons]
  by_cases row : lastRow key above = above.length ∧ cstr next.1 = cstr key
  · rw [if_pos row] at inner
    rw [if_pos ⟨inner, same⟩, row.1, Nat.add_assoc]
    simp [Nat.even_add, show Even 2 from ⟨1, rfl⟩]
  · rw [if_neg row] at inner
    rw [if_neg (by omega), inner]

def OnlyAdapters (key : Bytes) (above : Entries ι) : Prop :=
  ∀ k any, (k, StoreEntry.store any) ∈ above → cstr k ≠ cstr key

theorem search_lt (key : Bytes) :
    ∀ (skip : Bool) (entries : Entries ι) (any : Anything) (i : Nat),
      search key skip entries = some (any, i) → i < entries.length := by
  intro skip entries
  induction entries generalizing skip with
  | nil =>
    intro any i found
    cases skip <;> cases found
  | cons entry entries ih =>
    intro any i found
    rw [length_cons]
    cases skip with
    | true =>
      exact Nat.lt_succ_of_lt (ih false any i found)
    | false =>
      obtain ⟨k, entry⟩ := entry
      rw [search_cons] at found
      split at found
      · cases entry with
        | store other =>
          cases found
          exact Nat.lt_succ_self _
        | object li =>
          exact Nat.lt_succ_of_lt (ih true any i found)
      · exact Nat.lt_succ_of_lt (ih false any i found)

theorem search_topmost {key k : Bytes} (any : Anything)
    (rest : Entries ι) (same : cstr k = cstr key) :
    ∀ above : Entries ι, OnlyAdapters key above →
      (search key false (above ++ (k, .store any) :: rest) =
          some (any, rest.length) ↔ Even (lastRow key above)) ∧
        (search key true (above ++ (k, .store any) :: rest) = some (any, rest.length) ↔
            ∃ next behind, above = next :: behind ∧ Even (lastRow key behind)) := by
  intro above
  induction above with
  | nil =>
    intro _
    constructor
    · rw [nil_append, search_cons, if_pos same]
      exact iff_of_true rfl ⟨0, rfl⟩
    · apply iff_of_false
      · intro found
        exact Nat.lt_irrefl _ (search_lt key false rest any _ found)
      · rintro ⟨next, behind, equal, -⟩
        cases equal
  | cons entry above ih =>
    intro adapters
    have inner := ih fun k any member =>
      adapters k any (mem_cons_of_mem _ member)
    obtain ⟨other, entry⟩ := entry
    constructor
    · rw [cons_append, search_cons]
      by_cases matches_ : cstr other = cstr key
      · rw [if_pos matches_]
        cases entry with
        | store stored =>
          exact absurd matches_ (adapters other stored mem_cons_self)
        | object li =>
          rw [inner.2]
          cases above with
          | nil =>
            apply iff_of_false
            · rintro ⟨next, behind, equal, -⟩
              cases equal
            · simp [lastRow, matches_]
          | cons next behind =>
            rw [even_lastRow_cons (.object li) next behind matches_]
            constructor
            · rintro ⟨_, _, equal, even⟩
              cases equal
              exact even
            · exact fun even => ⟨next, behind, rfl, even⟩
      · rw [if_neg matches_, inner.1, lastRow, if_neg fun both => matches_ both.2]
    · rw [cons_append]
      have skipped : search key true
          ((other, entry) :: (above ++ (k, .store any) :: rest)) =
            search key false (above ++ (k, .store any) :: rest) := rfl
      rw [skipped, inner.1]
      constructor
      · exact fun even => ⟨(other, entry), above, rfl, even⟩
      · rintro ⟨_, _, equal, even⟩
        cases equal
        exact even

/-- The index of the topmost plain store pushed under a key. -/
structure IsTopmost (ctx : ContextStores ι) (key : Bytes) (t : Nat) (any : Anything) : Prop where
  stored : ctx.fStore.stack[t]? = some (.store any)
  name : cstr (ctx.fStore.keys.getD t []) = cstr key
  above : ∀ i other, t < i → ctx.fStore.stack[i]? = some (.store other) →
    cstr (ctx.fStore.keys.getD i []) ≠ cstr key

/-- How many entries of the name lie above an index, up to the first entry
with another name. -/
def sameNameAbove (ctx : ContextStores ι) (key : Bytes) (t : Nat) : Nat :=
  ((ctx.fStore.keys.drop (t + 1)).takeWhile fun k => cstr k = cstr key).length

def above (s : ContextStack (StoreEntry ι)) (t : Nat) : Entries ι :=
  ((s.keys.zip s.stack).drop (t + 1)).reverse

theorem below_all (aligned : s.Aligned) (t : Nat) :
    below s s.keys.length = above s t ++ below s (t + 1) := by
  have keys := aligned.keys
  have stack := aligned.stack
  have all : (s.keys.zip s.stack).take s.keys.length = s.keys.zip s.stack := by
    apply take_of_length_le
    rw [length_zip]
    omega
  rw [below, all, above, below, ← reverse_append, take_append_drop]

theorem lastRow_above (aligned : s.Aligned) (key : Bytes) (t : Nat) :
    lastRow key (above s t) =
      ((s.keys.drop (t + 1)).takeWhile fun k => cstr k = cstr key).length := by
  have keys := aligned.keys
  have stack := aligned.stack
  rw [lastRow_eq, above, reverse_reverse, map_drop, map_fst_zip (by omega)]

theorem onlyAdapters_above {t : Nat} {any : Anything} (inv : ctx.Inv)
    (topmost : ctx.IsTopmost key t any) :
    OnlyAdapters key (above ctx.fStore t) := by
  have keys := inv.stores.keys
  have stack := inv.stores.stack
  intro k other member
  rw [above, mem_reverse] at member
  rcases mem_drop_iff_getElem.mp member with ⟨i, inside, here⟩
  rw [length_zip] at inside
  rw [getElem_zip] at here
  have apart := topmost.above (t + 1 + i) other (by omega)
  rw [getElem?_eq_getElem (by omega), getD_eq_getElem _ _ (by omega)] at apart
  injection here with sameKey sameEntry
  exact sameKey ▸ apart (congrArg some sameEntry)

/-- A search finds the topmost plain store exactly when the adapters of that
name directly above it are even in number. -/
theorem intGetStore_topmost {t : Nat} {any : Anything} (inv : ctx.Inv)
    (topmost : ctx.IsTopmost key t any) :
    ctx.intGetStore (some key) = (any, (t : Int)) ↔ Even (ctx.sameNameAbove key t) := by
  have keys := inv.stores.keys
  have stack := inv.stores.stack
  have inside : t < ctx.fStore.keys.length := by
    have := (List.getElem?_eq_some_iff.mp topmost.stored).1
    omega
  have length : (below ctx.fStore t).length = t := by
    rw [below, length_reverse, length_take, length_zip]
    omega
  rcases ends_search inv.stores key _ (Nat.le_refl _) with ⟨result, ends, gives⟩
  rw [keys] at ends
  have found : ctx.intGetStore (some key) = result :=
    ends.run_eq (ctx.storeTurn_decreases (some key))
  rcases below_succ inv.stores inside with ⟨entry, here, whole⟩
  cases Option.some.inj (here.symm.trans topmost.stored)
  have topmostSearch := (search_topmost any (below ctx.fStore t)
    topmost.name _ (onlyAdapters_above inv topmost)).1
  rw [← whole, ← below_all inv.stores, length, lastRow_above inv.stores] at topmostSearch
  rw [found, sameNameAbove, ← topmostSearch]
  cases searched : search key false (below ctx.fStore ctx.fStore.keys.length) with
  | none =>
    rw [searched] at gives
    apply iff_of_false
    · intro same
      rw [same] at gives
      exact absurd gives (by simp [Gives])
    · exact fun some => by cases some
  | some pair =>
    rw [searched] at gives
    rw [show result = (pair.1, (pair.2 : Int)) from gives]
    rw [Prod.ext_iff, Option.some_inj, Prod.ext_iff]
    exact and_congr_right' Int.natCast_inj

/-- Whatever was pushed and popped: the stacks are aligned and the temporary
store is there; the topmost plain store of a name is found exactly when the
entries of that name directly above it are even in number. -/
theorem after_intGetStore_iff (operations : List (Operation ι)) :
    (after isLookupAdapter operations).Inv ∧
      ∀ key t any, (after isLookupAdapter operations).IsTopmost key t any →
        ((after isLookupAdapter operations).intGetStore (some key) = (any, (t : Int)) ↔
          Even ((after isLookupAdapter operations).sameNameAbove key t)) :=
  ⟨after_inv operations, fun _ _ _ topmost => intGetStore_topmost (after_inv operations) topmost⟩

/-- Under an adapter of its name a store is not found; under two it is. -/
theorem after_intGetStore_adapters :
    ((after not [.pushStore (some (lit "x")) (.array []),
          .push (some (lit "x")) (some false)]).intGetStore
            (some (lit "x")) = (.array [], 1) ↔ Even 1) ∧
      ((after not [.pushStore (some (lit "x")) (.array []), .push (some (lit "x")) (some false),
          .push (some (lit "x")) (some false)]).intGetStore
            (some (lit "x")) = (.array [], 1) ↔ Even 2) := by
  constructor
  · apply (after_intGetStore_iff _).2
    constructor
    · rfl
    · rfl
    · intro i other above stored
      match i with
      | 2 => cases stored
      | i + 3 => cases stored
  · apply (after_intGetStore_iff _).2
    constructor
    · rfl
    · rfl
    · intro i other above stored
      match i with
      | 2 => cases stored
      | 3 => cases stored
      | i + 4 => cases stored

/-- The store under one adapter is lost. -/
theorem not_intGetStore_topmost :
    ¬ ∀ (operations : List (Operation Bool)) (key : Bytes) (t : Nat)
        (any : Anything), (after not operations).IsTopmost key t any →
      (after not operations).intGetStore (some key) = (any, (t : Int)) := by
  intro always
  have found := always [.pushStore (some (lit "x")) (.array []),
    .push (some (lit "x")) (some false)] (lit "x") 1 (.array [])
    ⟨rfl, rfl, by
      intro i other above stored
      match i with
      | 2 => cases stored
      | i + 3 => cases stored⟩
  exact absurd (congrArg Prod.snd found) (by decide)

end ContextStores

end Coast
