import Coast.Base.AnyReference
import Coast.Wdbase.SecurityModule

/-!
# The filter of a query

`HandleQuery` takes sensitive tags out of the query of the client, and then
adds the private state that other tags carry in scrambled form.
-/

namespace Coast

/-- The handle of an `Anything` and the heap that it looks into. -/
structure AnyNode where
  heap : Heap
  handle : Handle
  deriving DecidableEq

namespace AnyNode

def asString (this : AnyNode) : Bytes := this.heap.asString this.handle

def charPtrText (this : AnyNode) : Bytes := (this.heap.asCharPtr this.handle).getD []

def slots (this : AnyNode) : Slots AnyNode :=
  (this.heap.slots this.handle).map fun slot =>
    (slot.1, ⟨this.heap, slot.2⟩)

end AnyNode

/-- What the filter calls: the security module with the environment of its
parser, and the renderers, which may look at the query. -/
structure URLFilter where
  securityModule : SecurityModule
  env : ParserEnv
  depth : Nat
  renderToString : Slots AnyNode → Anything → Bytes

namespace URLFilter

/-- `conf.LookupPath(name)` for a name without delimiters. -/
def lookupSlot (conf : Anything) (name : Bytes) : Option Anything :=
  match conf with
  | .array slots => Slots.lookup slots name
  | _ => none

def slotName (this : URLFilter) (query : Slots AnyNode) : Anything → Bytes
  | .charPtr value => value
  | filter => this.renderToString query filter

def doFilterState (query : Slots AnyNode) (slotName : Bytes) : Slots AnyNode :=
  if query.isDefined slotName then query.removeKey slotName else query

/-- A tag is removed, always or if it has one of the given values. -/
def filterTag (this : URLFilter) (query : Slots AnyNode)
    (entry : Bytes × Anything) : Bool × Slots AnyNode :=
  if entry.1 ≠ [] then
    let slotName := cstr entry.1
    let value := ((query.lookup slotName).map AnyNode.asString).getD []
    if entry.2.contains (cstr value) then (true, query.removeKey slotName)
    else (true, query)
  else
    let slotName := this.slotName query entry.2
    if slotName.length = 0 then (false, query)
    else (true, doFilterState query (cstr slotName))

def filterStateLoop (this : URLFilter) : Slots Anything → Slots AnyNode → Bool × Slots AnyNode
  | [], query => (true, query)
  | entry :: entries, query =>
    let turn := this.filterTag query entry
    let rest := this.filterStateLoop entries turn.2
    (turn.1 && rest.1, rest.2)

def filterState (this : URLFilter) (query : Slots AnyNode)
    (filterTags : Anything) : Bool × Slots AnyNode :=
  this.filterStateLoop filterTags.slots query

def unscramble (this : URLFilter) (s : Bytes) : Option (Slots AnyNode) :=
  let state := this.securityModule.unscrambleState this.env this.depth s
  if state.ok then some (AnyNode.mk state.heap state.any).slots else none

/-- Slots of the state are added where the query has none of their name. -/
def getPrivateState (query : Slots AnyNode) : Slots AnyNode → Slots AnyNode
  | [] => query
  | slot :: state =>
    let name := cstr slot.1
    getPrivateState
      (if slot.1 ≠ [] ∧ query.isDefined name = false then
        query.setKey name slot.2
      else query) state

/-- The state in a tag takes the tag's place, if it can be unscrambled. -/
def doUnscrambleState (this : URLFilter) (query : Slots AnyNode)
    (slotName : Bytes) : Bool × Slots AnyNode :=
  match query.lookup slotName with
  | none => (true, query)
  | some value =>
    if 0 < value.charPtrText.length then
      match this.unscramble value.charPtrText with
      | some state =>
        (true, getPrivateState (query.removeKey slotName) state)
      | none => (false, query)
    else (false, query)

/-- The tag to unscramble, where a literal one ends at a NUL. -/
def tagToUnscramble (this : URLFilter) (query : Slots AnyNode) (filter : Anything) : Bytes :=
  cstr (this.slotName query filter)

def unscrambleStateLoop (this : URLFilter) : List Anything → Slots AnyNode → Bool × Slots AnyNode
  | [], query => (true, query)
  | filter :: filters, query =>
    let turn := this.doUnscrambleState query (this.tagToUnscramble query filter)
    let rest := this.unscrambleStateLoop filters turn.2
    (turn.1 && rest.1, rest.2)

def unscrambleState (this : URLFilter) (query : Slots AnyNode)
    (unscramblers : Anything) : Bool × Slots AnyNode :=
  this.unscrambleStateLoop (unscramblers.slots.map Prod.snd) query

def suppress (this : URLFilter) (query : Slots AnyNode)
    (filterQueryConf : Anything) : Bool × Slots AnyNode :=
  match lookupSlot filterQueryConf (lit "Tags2Suppress") with
  | some filters => this.filterState query filters
  | none => (true, query)

/-- Tags are suppressed before the state is unscrambled. -/
def handleQuery (this : URLFilter) (query : Slots AnyNode)
    (filterQueryConf : Anything) : Bool × Slots AnyNode :=
  let suppressed := this.suppress query filterQueryConf
  if suppressed.1 then
    match lookupSlot filterQueryConf (lit "Tags2Unscramble") with
    | some unscramblers => this.unscrambleState suppressed.2 unscramblers
    | none => (true, suppressed.2)
  else (false, suppressed.2)

def Suppresses (filterQueryConf : Anything) (name : Bytes) : Prop :=
  name ≠ [] ∧ ∃ filters value, lookupSlot filterQueryConf (lit "Tags2Suppress") = some filters ∧
    ([], .charPtr value) ∈ filters.slots ∧ cstr value = name

/-- A configuration whose unnamed tags are texts. -/
structure LiteralTags (filterQueryConf : Anything) : Prop where
  suppress : ∀ filters, lookupSlot filterQueryConf (lit "Tags2Suppress") = some filters →
      ∀ entry ∈ filters.slots, entry.1 = [] → ∃ value, entry.2 = .charPtr value
  unscramble : ∀ unscramblers, lookupSlot filterQueryConf (lit "Tags2Unscramble") =
        some unscramblers →
      ∀ entry ∈ unscramblers.slots, ∃ value, entry.2 = .charPtr value

def AgreeApart (names : Bytes → Prop) (query query' : Slots AnyNode) : Prop :=
  ∀ slot : Bytes × AnyNode, ¬ names slot.1 → (slot ∈ query ↔ slot ∈ query')

def SameSlots (query query' : Slots AnyNode) : Prop :=
  ∀ slot : Bytes × AnyNode, slot ∈ query ↔ slot ∈ query'

/-- The slot comes from a state that one of the tags carries when its turn
has come. -/
def FromTags (this : URLFilter) (query : Slots AnyNode)
    (filters : List Anything) (slot : Bytes × AnyNode) : Prop :=
  ∃ before filter after there value state entry, filters = before ++ filter :: after ∧
    there = (this.unscrambleStateLoop before query).2 ∧
    there.lookup (this.tagToUnscramble there filter) = some value ∧
    this.unscramble value.charPtrText = some state ∧ entry ∈ state ∧
    slot = (cstr entry.1, entry.2)

/-- The slot comes from a state that one of the tags to unscramble
carries. -/
def FromState (this : URLFilter) (query : Slots AnyNode)
    (filterQueryConf : Anything) (slot : Bytes × AnyNode) : Prop :=
  ∃ unscramblers, lookupSlot filterQueryConf (lit "Tags2Unscramble") = some unscramblers ∧
    this.FromTags (this.suppress query filterQueryConf).2 (unscramblers.slots.map Prod.snd) slot

end URLFilter

end Coast
