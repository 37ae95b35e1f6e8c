import Coast.Base.AnyAccess
import Coast.Library.TurnLoop

/-!
# Finding the next page

A session finishes the current page, asks its role for the next one and
prepares that.  A page that refuses is asked again with what the role says
next.  A request that needs another role is put aside and fetched again after
the role was exchanged.
-/

namespace Coast

open TurnLoop

/-- The slots of a query that are read or written meanwhile. -/
structure PageQuery where
  role : Option Bytes
  delayedIndex : Option Int
  action : Option Bytes
  page : Option Bytes
  deriving DecidableEq, Repr

def PageQuery.null : PageQuery := ⟨none, none, none, none⟩

/-- The session and its context: the name of the role, the name that the
context has, the query, the queries that were put aside, the role for which
that was done, and the page of the context. -/
structure SessionState where
  roleName : Bytes
  contextRole : Bytes
  query : PageQuery
  delayed : Option (List PageQuery)
  inReauthenticate : Option Bytes
  page : Option Bytes
  deriving DecidableEq, Repr

/-- With the transition and the page that `DoFindNextPage` is called with. -/
structure PageState extends SessionState where
  transition : Bytes
  currentpage : Bytes
  deriving DecidableEq, Repr

/-- What the configuration gives, and what roles and pages do.  What
`Synchronize`, `Finish` and `Prepare` give depends on the transition and the
page; `Finish` and `Prepare` may set another transition. -/
structure PageFlow where
  /-- `Context::Lookup`. -/
  lookup : SessionState → Bytes → Option Anything
  /-- `Lookup` of the role of this name. -/
  roleLookup : Bytes → Bytes → Option Anything
  /-- The name of the role that is found under a name. -/
  findRole : Bytes → Option Bytes
  findPage : Bytes → Option Bytes
  defaultRoleName : SessionState → Bytes
  defaultAction : SessionState → Bytes
  initRole : SessionState → Bytes → Bool
  synchronize : Bytes → Bytes → Bool
  finish : Bytes → Bytes → Bytes
  prepare : Bytes → Bytes → Bool × Bytes

namespace PageFlow

variable (flow : PageFlow)

def lookupText (st : SessionState) (key dflt : Bytes) : Bytes :=
  ((flow.lookup st key).bind Anything.asCharPtr).getD dflt

def startPage (st : SessionState) : Bytes := flow.lookupText st (lit "StartPage") (lit "HomePage")

def errorPage (st : SessionState) : Bytes := flow.lookupText st (lit "ErrorPage") (lit "ErrorPage")

def verify (st : PageState) : Bool :=
  st.transition = lit "Logout" ||
    st.roleName = st.query.role.getD (flow.defaultRoleName st.toSessionState)

def isStayOnSamePageToken (role transition : Bytes) : Bool :=
  transition = lit "StayOnSamePage" ||
    (flow.roleLookup role (lit "StayOnSamePageTokens")).any fun tokens =>
      tokens.contains (cstr transition)

def getNextActionConfig (role transition pagename : Bytes) : Anything :=
  let index := lit "Map." ++ pagename ++ lit "." ++ transition
  let defaultindex := lit "Map.Default." ++ transition
  ((flow.roleLookup role index).or (flow.roleLookup role defaultindex)).getD .null

def slotAt (entry : Anything) (i : Nat) : Anything := (entry.slots[i]?.map Prod.snd).getD .null

/-- The page that the role map names for a transition, if it names one. -/
def getNewPageName (role transition pagename : Bytes) : Option (Bytes × Bytes) :=
  if flow.isStayOnSamePageToken role transition then
    some (lit "PreprocessAction", pagename)
  else
    let entry := flow.getNextActionConfig role transition pagename
    let newpage :=
      if entry.isDefined (lit "Page") then entry.atKey (lit "Page")
      else slotAt entry 0
    newpage.asCharPtr.map fun newpagename =>
      (if 1 < entry.slots.length then
        if entry.isDefined (lit "Action") then
          (entry.atKey (lit "Action")).charPtrText
        else (slotAt entry 1).charPtrText
      else lit "PreprocessAction", newpagename)

def checkRoleExchange (st : PageState) : Option Bytes :=
  let entry := lit "RoleChanges." ++ cstr st.transition
  let ofRole := entry ++ lit "." ++ st.roleName
  match ((flow.lookup st.toSessionState ofRole).or
      (flow.lookup st.toSessionState entry)).getD .null with
  | .array _ => flow.findRole []
  | roleEntry => flow.findRole roleEntry.asString

def needsPageInsert (st : PageState) : Bool × PageState :=
  if flow.verify st then (false, st)
  else
    (true, { st with
      transition := lit "Login"
      currentpage := flow.startPage st.toSessionState })

def putAside (query : PageQuery) : Option (List PageQuery) → List PageQuery
  | some (_ :: delayed) => query :: delayed
  | _ => [query]

/-- `SaveToDelayed`: the query is put aside, once for a role; the link state
of role and session goes into the new one. -/
def saveToDelayed (st : PageState) : PageState :=
  if st.inReauthenticate = some st.roleName then st
  else
    { st with
      delayed := some (putAside st.query st.delayed)
      query :=
        { role := some st.roleName
          delayedIndex := some (st.query.delayedIndex.getD 0)
          action := some st.transition
          page := some (st.page.getD st.currentpage) }
      inReauthenticate := some st.contextRole }

def finishPage (st : PageState) : PageState :=
  match if st.currentpage = [] then none else flow.findPage st.currentpage with
  | none => st
  | some name =>
    { st with
      page := some name
      transition := flow.finish st.transition st.currentpage }

def prepareLogout (st : PageState) : PageState :=
  { st with
    transition := lit "Logout"
    currentpage := flow.startPage st.toSessionState }

def afterPageInsert (st : PageState) : Bool × PageState :=
  match flow.checkRoleExchange st with
  | none => (false, st)
  | some newrole =>
    if flow.initRole st.toSessionState newrole then
      (true, { st with roleName := newrole, contextRole := newrole })
    else (false, flow.prepareLogout st)

/-- The query that was delayed by a login is taken back. -/
def retrieveFromDelayed (st : PageState) : Bool × PageState :=
  match st.delayed, st.query.delayedIndex with
  | some saved, some index =>
    if 0 ≤ index then
      let i := index.toNat
      let saved := saved ++ List.replicate (i + 1 - saved.length) .null
      let query := saved.getD i .null
      let rest := saved.eraseIdx i
      let st :=
        { st with
          query := query
          delayed := if rest = [] then none else some rest }
      let lastAction := query.action.getD (flow.defaultAction st.toSessionState)
      if lastAction ≠ [] then
        (true, { st with
          transition := lastAction
          currentpage := query.page.getD (flow.startPage st.toSessionState) })
      else (false, st)
    else (false, st)
  | _, _ => (false, st)

/-- `Prepare` of the page, which may change the transition. -/
def preparePage (st : PageState) : Bool × PageState :=
  match flow.findPage st.currentpage with
  | some name =>
    let (ret, transition) := flow.prepare st.transition st.currentpage
    (ret, { st with
      page := if st.transition = [] then st.page else some name
      transition := transition })
  | none =>
    let errorpage := flow.errorPage st.toSessionState
    if st.currentpage = errorpage then (true, st)
    else
      (false, { st with
        transition := lit "Error"
        currentpage := errorpage })

/-- `Synchronize`, then the next page, or the error page where there is none. -/
def goOn (st : PageState) : Round PageState :=
  let synchronized := flow.synchronize st.transition st.currentpage
  let st := if synchronized then st else flow.prepareLogout st
  let st :=
    match flow.getNewPageName st.roleName st.transition st.currentpage with
    | some (transition, currentpage) => { st with transition, currentpage }
    | none => { st with currentpage := flow.errorPage st.toSessionState }
  let (prepared, st) := flow.preparePage st
  if prepared || !synchronized then .ends st else .again st

/-- One turn of the loop; after a query was fetched it goes past the
guard. -/
def round (st : PageState) : Round PageState :=
  let (needs, st) := flow.needsPageInsert st
  if needs then flow.goOn (saveToDelayed st)
  else
    let (exchanged, st) := flow.afterPageInsert (flow.finishPage st)
    if exchanged then
      match flow.retrieveFromDelayed st with
      | (true, st) => .uncounted st
      | (false, st) => flow.goOn st
    else flow.goOn st

def place (st : PageState) : Bytes × Bytes := (st.transition, st.currentpage)

/-- `DoFindNextPage` with so many rounds at most: whether it is done, or was
cancelled. -/
def doFindNextPage (fuel : Nat) (st : PageState) : Option (Bool × PageState) :=
  guarded flow.round place 2 fuel (place st) 0 st

/-! ## The page graph

What the role, `Synchronize`, the role map and `Prepare` answer, one page
after the other.
-/

variable {flow}

/-- From one page and transition the role map is asked about another state:
after a role that does not verify, at the start page; else when the page is
finished, the role is the one for the transition, and the query that was put
aside is fetched. -/
inductive Asks (flow : PageFlow) : PageState → PageState → Prop
  | login {st : PageState} (other : flow.verify st = false) :
      Asks flow st (saveToDelayed { st with
        transition := lit "Login"
        currentpage := flow.startPage st.toSessionState })
  | stays {st : PageState} (verified : flow.verify st = true)
      (sameRole : flow.checkRoleExchange (flow.finishPage st) = none) :
      Asks flow st (flow.finishPage st)
  | refused {st : PageState} {role : Bytes} (verified : flow.verify st = true)
      (newrole : flow.checkRoleExchange (flow.finishPage st) = some role)
      (fails : flow.initRole (flow.finishPage st).toSessionState role = false) :
      Asks flow st (flow.prepareLogout (flow.finishPage st))
  | entered {st there : PageState} {role : Bytes} (verified : flow.verify st = true)
      (newrole : flow.checkRoleExchange (flow.finishPage st) = some role)
      (enters : flow.initRole (flow.finishPage st).toSessionState role = true)
      (nothing : flow.retrieveFromDelayed
        { flow.finishPage st with roleName := role, contextRole := role } = (false, there)) :
      Asks flow st there
  | fetched {st next there : PageState} {role : Bytes} (verified : flow.verify st = true)
      (newrole : flow.checkRoleExchange (flow.finishPage st) = some role)
      (enters : flow.initRole (flow.finishPage st).toSessionState role = true)
      (query : flow.retrieveFromDelayed
        { flow.finishPage st with roleName := role, contextRole := role } = (true, next))
      (rest : Asks flow next there) : Asks flow st there

/-- The transition and the page that the role map answers, or the error page. -/
def answer (flow : PageFlow) (st : PageState) : PageState :=
  match flow.getNewPageName st.roleName st.transition st.currentpage with
  | some (transition, page) => { st with transition := transition, currentpage := page }
  | none => { st with currentpage := flow.errorPage st.toSessionState }

/-- The page lets itself be prepared, or is the error page and missing. -/
def Accepts (flow : PageFlow) (st : PageState) : Prop :=
  match flow.findPage st.currentpage with
  | some _ => (flow.prepare st.transition st.currentpage).1 = true
  | none => st.currentpage = flow.errorPage st.toSessionState

/-- The page does not let itself be prepared and may set another transition,
or is missing. -/
inductive Refuses (flow : PageFlow) : PageState → PageState → Prop
  | page {st : PageState} {name : Bytes} (found : flow.findPage st.currentpage = some name)
      (fails : (flow.prepare st.transition st.currentpage).1 = false) :
      Refuses flow st { st with
        page := if st.transition = [] then st.page else some name
        transition := (flow.prepare st.transition st.currentpage).2 }
  | missing {st : PageState} (none_ : flow.findPage st.currentpage = none)
      (other : st.currentpage ≠ flow.errorPage st.toSessionState) :
      Refuses flow st { st with
        transition := lit "Error"
        currentpage := flow.errorPage st.toSessionState }

/-- `Synchronize` holds, and the page that the role map answers refuses. -/
def Edge (flow : PageFlow) (st next : PageState) : Prop :=
  ∃ asked, Asks flow st asked ∧
    flow.synchronize asked.transition asked.currentpage = true ∧
    Refuses flow (flow.answer asked) next

/-- `Synchronize` fails, or the page that the role map answers accepts. -/
def Settles (flow : PageFlow) (st : PageState) : Prop :=
  ∃ asked, Asks flow st asked ∧
    (flow.synchronize asked.transition asked.currentpage = false ∨
      Accepts flow (flow.answer asked))

open Relation

/-- The walk along the edges comes to a page where it settles, or to one whose
transition and page two edges leave as they are. -/
def WalkEnds (flow : PageFlow) (st : PageState) : Prop :=
  ∃ last, ReflTransGen (Edge flow) st last ∧ (Settles flow last ∨
      ∃ one two, Edge flow last one ∧ Edge flow one two ∧
        place one = place last ∧ place two = place one)

/-! ## The loop walks along the edges -/

theorem goOn_synchronized {asked : PageState}
    (synchronized : flow.synchronize asked.transition asked.currentpage = true) :
    flow.goOn asked =
      if (flow.preparePage (flow.answer asked)).1 then .ends (flow.preparePage (flow.answer asked)).2
      else .again (flow.preparePage (flow.answer asked)).2 := by
  rw [goOn, answer]
  simp only [synchronized, if_true, Bool.not_true, Bool.or_false]

theorem goOn_logout {asked : PageState}
    (fails : flow.synchronize asked.transition asked.currentpage = false) :
    ∃ last, flow.goOn asked = .ends last := by
  rw [goOn]
  simp [fails]

theorem goOn_ne_uncounted (asked next : PageState) : flow.goOn asked ≠ .uncounted next := by
  cases synchronized : flow.synchronize asked.transition asked.currentpage with
  | false =>
    rcases goOn_logout synchronized with ⟨last, ends⟩
    rw [ends]
    nofun
  | true =>
    rw [goOn_synchronized synchronized]
    split
    · nofun
    · nofun

theorem accepts_iff {st : PageState} : Accepts flow st ↔ (flow.preparePage st).1 = true := by
  rw [Accepts, preparePage]
  cases found : flow.findPage st.currentpage with
  | some name => exact Iff.rfl
  | none => by_cases same : st.currentpage = flow.errorPage st.toSessionState <;> simp [same]

theorem refuses_iff {st next : PageState} :
    Refuses flow st next ↔ flow.preparePage st = (false, next) := by
  constructor
  · intro refuses
    cases refuses with
    | page found fails => rw [preparePage, found, ← fails]
    | missing none_ other =>
      rw [preparePage, none_]
      simp only [if_neg other]
  · rw [preparePage]
    cases found : flow.findPage st.currentpage with
    | some name =>
      intro refuses
      rcases Prod.mk.inj refuses with ⟨fails, rfl⟩
      exact .page found fails
    | none =>
      intro refuses
      dsimp only at refuses
      split at refuses
      · cases refuses
      · next other =>
        cases refuses
        exact .missing found other

theorem goOn_again_iff {asked next : PageState} : flow.goOn asked = .again next ↔
    flow.synchronize asked.transition asked.currentpage = true ∧
      Refuses flow (flow.answer asked) next := by
  rw [refuses_iff]
  cases synchronized : flow.synchronize asked.transition asked.currentpage with
  | false =>
    rcases goOn_logout synchronized with ⟨last, ends⟩
    simp [ends]
  | true =>
    rw [goOn_synchronized synchronized]
    rcases flow.preparePage (flow.answer asked) with ⟨_ | _, after⟩ <;> simp

theorem goOn_ends_iff {asked : PageState} : (∃ last, flow.goOn asked = .ends last) ↔
    flow.synchronize asked.transition asked.currentpage = false ∨
      Accepts flow (flow.answer asked) := by
  rw [accepts_iff]
  cases synchronized : flow.synchronize asked.transition asked.currentpage with
  | false => exact iff_of_true (goOn_logout synchronized) (.inl rfl)
  | true =>
    rw [goOn_synchronized synchronized]
    rcases flow.preparePage (flow.answer asked) with ⟨_ | _, after⟩ <;> simp

/-- A round fetches a query, or goes on from what the role map is asked about. -/
theorem round_cases (flow : PageFlow) (st : PageState) :
    (∃ next, flow.round st = .uncounted next ∧
      ∀ there, Asks flow next there → Asks flow st there) ∨
    ∃ asked, Asks flow st asked ∧ flow.round st = flow.goOn asked := by
  rw [round, needsPageInsert]
  cases verified : flow.verify st with
  | false => exact .inr ⟨_, .login verified, rfl⟩
  | true =>
    simp only [if_true, Bool.false_eq_true, if_false, afterPageInsert]
    cases newrole : flow.checkRoleExchange (flow.finishPage st) with
    | none => exact .inr ⟨_, .stays verified newrole, rfl⟩
    | some role =>
      cases enters : flow.initRole (flow.finishPage st).toSessionState role with
      | false =>
        simp only [enters, Bool.false_eq_true, if_false]
        exact .inr ⟨_, .refused verified newrole enters, rfl⟩
      | true =>
        simp only [enters, if_true]
        rcases query : flow.retrieveFromDelayed
          { flow.finishPage st with roleName := role, contextRole := role } with ⟨_ | _, next⟩
        · exact .inr ⟨next, .entered verified newrole enters query, rfl⟩
        · exact .inl ⟨next, rfl, fun there => .fetched verified newrole enters query⟩

theorem asks_of_skips {st before asked : PageState}
    (skips : ReflTransGen (Skips flow.round) st before) (asks : Asks flow before asked) : Asks flow st asked := by
  induction skips using ReflTransGen.head_induction_on with
  | refl => exact asks
  | @head st next skip _ ih =>
    rcases round_cases flow st with ⟨other, fetches, later⟩ | ⟨goes, -, isGoOn⟩
    · cases skip.symm.trans fetches
      exact later _ ih
    · exact absurd (isGoOn.symm.trans skip) (goOn_ne_uncounted goes next)

theorem Asks.skips {st asked : PageState} (asks : Asks flow st asked) :
    ∃ before, ReflTransGen (Skips flow.round) st before ∧
      flow.round before = flow.goOn asked := by
  induction asks with
  | @login st other =>
    refine ⟨st, .refl, ?_⟩
    simp only [round, needsPageInsert, other, Bool.false_eq_true, if_false, if_true]
  | @stays st verified sameRole =>
    refine ⟨st, .refl, ?_⟩
    simp only [round, needsPageInsert, verified, afterPageInsert, sameRole, Bool.false_eq_true,
      if_false, if_true]
  | @refused st role verified newrole fails =>
    refine ⟨st, .refl, ?_⟩
    simp only [round, needsPageInsert, verified, afterPageInsert, newrole, fails,
      Bool.false_eq_true, if_false, if_true]
  | @entered st there role verified newrole enters nothing =>
    refine ⟨st, .refl, ?_⟩
    simp only [round, needsPageInsert, verified, afterPageInsert, newrole, enters, nothing,
      Bool.false_eq_true, if_false, if_true]
  | @fetched st next there role verified newrole enters query rest ih =>
    rcases ih with ⟨before, skips, goes⟩
    refine ⟨before, .head ?_ skips, goes⟩
    simp only [Skips, round, needsPageInsert, verified, afterPageInsert, newrole, enters, query,
      Bool.false_eq_true, if_false, if_true]

theorem counted_iff {st next : PageState} : Counted flow.round st next ↔ Edge flow st next := by
  constructor
  · rintro ⟨before, skips, again⟩
    rcases round_cases flow before with ⟨other, fetches, -⟩ | ⟨asked, asks, isGoOn⟩
    · cases again.symm.trans fetches
    · exact ⟨asked, asks_of_skips skips asks, goOn_again_iff.mp (isGoOn.symm.trans again)⟩
  · rintro ⟨asked, asks, answers⟩
    rcases asks.skips with ⟨before, skips, isGoOn⟩
    exact ⟨before, skips, isGoOn.trans (goOn_again_iff.mpr answers)⟩

theorem finishes_iff {st : PageState} : Finishes flow.round st ↔ Settles flow st := by
  constructor
  · rintro ⟨before, last, skips, ends⟩
    rcases round_cases flow before with ⟨other, fetches, -⟩ | ⟨asked, asks, isGoOn⟩
    · cases ends.symm.trans fetches
    · exact ⟨asked, asks_of_skips skips asks,
        goOn_ends_iff.mp ⟨last, isGoOn.symm.trans ends⟩⟩
  · rintro ⟨asked, asks, settles⟩
    rcases asks.skips with ⟨before, skips, isGoOn⟩
    rcases goOn_ends_iff.mpr settles with ⟨last, ends⟩
    exact ⟨before, last, skips, isGoOn.trans ends⟩

theorem stays_two {last : PageState} :
    (∃ two, Stays flow.round place 2 last two) ↔
      ∃ one two, Counted flow.round last one ∧ Counted flow.round one two ∧
        place one = place last ∧ place two = place one := by
  constructor
  · intro stays
    rcases stays with ⟨two, stays⟩
    cases stays with
    | @tail _ _ one _ first counted same =>
      cases first with
      | tail none' before unchanged =>
        cases none' with
        | refl => exact ⟨one, two, before, counted, unchanged, same⟩
  · intro rounds
    rcases rounds with ⟨one, two, before, counted, unchanged, same⟩
    exact ⟨two, .tail (.tail (.refl last) before unchanged) counted same⟩

/-- The search for the next page returns exactly if the walk along the page
graph comes to an end. -/
theorem doFindNextPage_returns_iff (flow : PageFlow) (st : PageState) :
    (∃ fuel r, flow.doFindNextPage fuel st = some r) ↔ WalkEnds flow st := by
  have returns := @returns_iff _ _ _ flow.round place 2 (by decide) st
  have sameEdges : Counted flow.round = Edge flow := by
    funext first next
    exact propext counted_iff
  simp only [stays_two, finishes_iff, sameEdges] at returns
  exact returns

/-- Two pages, each of which the role map gives after the other one. -/
private def twoPages (accepts : Bytes → Bool) : PageFlow where
  lookup _ _ := none
  roleLookup _ key :=
    if key = lit "Map.A.Go" then
      some (.array [([], .charPtr (lit "B")), ([], .charPtr (lit "Go"))])
    else if key = lit "Map.B.Go" then
      some (.array [([], .charPtr (lit "A")), ([], .charPtr (lit "Go"))])
    else none
  findRole _ := none
  findPage name := some name
  defaultRoleName _ := lit "Role"
  defaultAction _ := lit "Home"
  initRole _ _ := true
  synchronize _ _ := true
  finish transition _ := transition
  prepare transition page := (accepts page, transition)

private def onPage (page : Bytes) : PageState where
  roleName := lit "Role"
  contextRole := lit "Role"
  query := .null
  delayed := none
  inReauthenticate := none
  page := some page
  transition := lit "Go"
  currentpage := page

/-- Both pages refuse. -/
theorem twoPages_not_returns :
    ¬ ∃ fuel r, (twoPages fun _ => false).doFindNextPage fuel (onPage (lit "A")) = some r := by
  refine @not_returns _ _ _ (twoPages fun _ => false).round place 2 (onPage (lit "A"))
    (fun st => st = onPage (lit "A") ∨ st = onPage (lit "B")) ?_ (.inl rfl)
  intro st page
  rcases page with rfl | rfl
  · exact ⟨onPage (lit "B"), by decide +kernel, by decide, .inr rfl⟩
  · exact ⟨onPage (lit "A"), by decide +kernel, by decide, .inl rfl⟩

/-- With pages that refuse the walk does not end, with one that accepts it
does. -/
theorem doFindNextPage_returns_iff_twoPages :
    ¬ WalkEnds (twoPages fun _ => false) (onPage (lit "A")) ∧
    ∃ fuel r, (twoPages fun page => decide (page = lit "B")).doFindNextPage fuel
      (onPage (lit "A")) = some r := by
  constructor
  · rw [← doFindNextPage_returns_iff]
    exact twoPages_not_returns
  · refine (doFindNextPage_returns_iff _ _).mpr ⟨onPage (lit "A"), .refl, .inl ?_⟩
    refine ⟨_, .stays (by decide +kernel) (by decide +kernel), .inr (accepts_iff.mpr ?_)⟩
    decide +kernel

theorem not_doFindNextPage_returns :
    ¬∀ (flow : PageFlow) (st : PageState), ∃ fuel r, flow.doFindNextPage fuel st = some r :=
  fun always => twoPages_not_returns (always _ _)

end PageFlow

end Coast
