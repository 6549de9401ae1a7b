import Craqle.Index.Spaces

/-! # Planning and staging an index update

`plan_index_update` turns the net liveness transitions of one commit into the writes that
bring the active slot up to date: new term mappings, row changes, counters, predicate
revisions and a header. Anything unexpected in what it reads makes it give up (`none`), and
the caller marks the index as failed. `stage_index_plan` writes a plan.

Counters are 64-bit: an addition past that gives up too. The sums of deltas are 128-bit and
cannot overflow. Updates are listed in the order of first use.
-/

namespace Craqle

structure NetQuadTransition where
  quad : EncodedQuad
  wasLive : Bool
  isLive : Bool
  deriving DecidableEq

inductive StoredIndexState where
  | building
  | ready
  | failed (reason : String)
  deriving DecidableEq

structure IndexHeader where
  activeSlot : Nat
  state : StoredIndexState
  sourceEpoch : Nat
  indexEpoch : Nat
  sourceLiveQuads : Nat
  indexedQuads : Nat
  lastBuildSequence : Nat
  queryIdGeneration : Nat
  nextQueryId : QueryTermId
  deriving DecidableEq

namespace IndexHeader

def emptyReady : IndexHeader := ⟨0, .ready, 0, 0, 0, 0, 0, 1, 0⟩

def failedFrom (previous : Option IndexHeader) (reason : String) : IndexHeader :=
  { previous.getD emptyReady with state := .failed reason }

def readyIsCoherent (h : IndexHeader) : Bool :=
  h.state = .ready && h.sourceEpoch = h.indexEpoch && h.sourceLiveQuads = h.indexedQuads &&
    h.queryIdGeneration ≠ 0

def fitsSnapshot (h : IndexHeader) (sequence : Nat) : Bool :=
  h.sourceEpoch ≤ sequence && h.indexEpoch ≤ sequence && h.lastBuildSequence ≤ sequence

end IndexHeader

structure IndexUpdatePlan where
  slot : IndexSlot
  transitions : List (QueryQuad × Bool)
  mappings : List (TermId × QueryTermId)
  counters : List (IndexCounterKey × Option Nat)
  revisions : List (QueryTermId × Nat)
  header : Option IndexHeader
  deriving DecidableEq

/-! ## Terms -/

/-- The identifiers resolved so far, and the mappings that are new. -/
structure TermResolver where
  allowAllocate : Bool
  resolved : TermId → Option QueryTermId
  mappings : List (TermId × QueryTermId)
  nextQueryId : QueryTermId

namespace TermResolver

def remember (r : TermResolver) (t : TermId) (i : QueryTermId) : TermResolver :=
  { r with resolved := Function.update r.resolved t (some i) }

/-- Take the next identifier for a term. -/
def allocate (r : TermResolver) (t : TermId) : TermResolver :=
  { r.remember t r.nextQueryId with
    mappings := r.mappings ++ [(t, r.nextQueryId)]
    nextQueryId := r.nextQueryId + 1 }

end TermResolver

/-- The identifier of a term: remembered, stored with a matching reverse mapping, or new. -/
def resolveQueryTerm (sp : IndexSpaces) (t : TermId) (r : TermResolver) :
    Option (QueryTermId × TermResolver) :=
  match r.resolved t with
  | some i => some (i, r)
  | none =>
    match sp.termToQuery t with
    | .malformed => none
    | .value i =>
      if i ≥ r.nextQueryId then none
      else if sp.queryToTerm i ≠ .value t then none
      else some (i, r.remember t i)
    | .missing =>
      if r.allowAllocate = false then none
      else if r.nextQueryId + 1 ≥ 2 ^ 64 then none
      else if sp.queryToTerm r.nextQueryId ≠ .missing then none
      else some (r.nextQueryId, r.allocate t)

def resolveTerms (resolve : TermId → TermResolver → Option (QueryTermId × TermResolver))
    (e : EncodedQuad) (r : TermResolver) : Option (QueryQuad × TermResolver) := do
  let (graph, r) ← resolve e.graph r
  let (subject, r) ← resolve e.subject r
  let (predicate, r) ← resolve e.predicate r
  let (object, r) ← resolve e.object r
  some (⟨graph, subject, predicate, object⟩, r)

/-! ## Rows -/

/-- Whether the row is in the wanted state already in all orders, and whether it is in the
other state in all of them. -/
def rowStates (sp : IndexSpaces) (q : QueryQuad) (isLive : Bool) : Option (Bool × Bool) :=
  IndexKeyOrder.all.foldlM (fun acc o =>
    match (sp.orders o).get q with
    | .malformed => none
    | .missing => some (acc.1 && false == isLive, acc.2 && false != isLive)
    | .value () => some (acc.1 && true == isLive, acc.2 && true != isLive)) (true, true)

def planTransition (sp : IndexSpaces) (acc : TermResolver × List (QueryQuad × Bool))
    (transition : NetQuadTransition) : Option (TermResolver × List (QueryQuad × Bool)) := do
  let (q, r) ← resolveTerms (resolveQueryTerm sp) transition.quad
    { acc.1 with allowAllocate := transition.isLive }
  let (alreadyDesired, priorStateAll) ← rowStates sp q transition.isLive
  if alreadyDesired then some (r, acc.2)
  else if priorStateAll = false then none
  else some (r, acc.2 ++ [(q, transition.isLive)])

/-! ## The duplicate-free flag -/

/-- Some graph has the quad's triple. -/
def indexSpoExists (sp : IndexSpaces) (q : QueryQuad) : Bool :=
  decide (∃ row ∈ (sp.orders .spog).keys, row.spo = q.spo)

/-- A quad with a new term is the first of its triple. -/
def usesNewTerm (mappings : List (TermId × QueryTermId)) (q : QueryQuad) : Bool :=
  mappings.any fun m => m.2 = q.subject || m.2 = q.predicate || m.2 = q.object

def transitionKeepsUnion (sp : IndexSpaces) (transition : QueryQuad × Bool)
    (mappings : List (TermId × QueryTermId)) : Bool :=
  !transition.2 || usesNewTerm mappings transition.1 || !indexSpoExists sp transition.1

/-- The loop over the insertions of a longer plan: no triple twice, and none that is there. -/
def insertionsKeepUnion (sp : IndexSpaces) (mappings : List (TermId × QueryTermId)) :
    List (QueryTermId × QueryTermId × QueryTermId) → List (QueryQuad × Bool) → Bool
  | _, [] => true
  | inserted, (q, isLive) :: rest =>
    if isLive = false then insertionsKeepUnion sp mappings inserted rest
    else if q.spo ∈ inserted then false
    else if usesNewTerm mappings q = false ∧ indexSpoExists sp q = true then false
    else insertionsKeepUnion sp mappings (q.spo :: inserted) rest

def unionPreserved (sp : IndexSpaces) (transitions : List (QueryQuad × Bool))
    (mappings : List (TermId × QueryTermId)) : Bool :=
  match transitions with
  | [transition] => transitionKeepsUnion sp transition mappings
  | _ => insertionsKeepUnion sp mappings [] transitions

/-! ## Counters -/

def counterHasRows (sp : IndexSpaces) (k : IndexCounterKey) : Bool :=
  match k with
  | .total | .unionDuplicateFree => true
  | .predicate _ | .predicateObject _ _ =>
    decide (∃ row ∈ (sp.orders .posg).keys, k.matchesQuad row = true)
  | .graph _ | .graphPredicate _ _ | .graphPredicateObject _ _ _ =>
    decide (∃ row ∈ (sp.orders .gpos).keys, k.matchesQuad row = true)

def adjustedCounter (current : Nat) (delta : Int) : Option Nat :=
  if 0 ≤ delta then
    if delta.toNat < 2 ^ 64 ∧ current + delta.toNat < 2 ^ 64 then some (current + delta.toNat)
    else none
  else if (-delta).toNat < 2 ^ 64 ∧ (-delta).toNat ≤ current then some (current - (-delta).toNat)
  else none

def counterDelta (transitions : List (QueryQuad × Bool)) (k : IndexCounterKey) : Int :=
  (transitions.map (Toggle.weight k.matchesQuad)).sum

def touchedCounters (transitions : List (QueryQuad × Bool)) : List IndexCounterKey :=
  (transitions.flatMap fun c => liveCounterKeys c.1).dedup

/-- The value a counter has now, if it fits its rows. -/
def currentCounter (sp : IndexSpaces) (k : IndexCounterKey) : Option Nat :=
  match sp.counters k with
  | .missing => if k ≠ .total ∧ counterHasRows sp k = false then some 0 else none
  | .malformed => none
  | .value n => if k = .total ∨ (n ≠ 0 ∧ counterHasRows sp k = true) then some n else none

def planCounter (sp : IndexSpaces) (transitions : List (QueryQuad × Bool)) (k : IndexCounterKey) :
    Option (IndexCounterKey × Option Nat) := do
  let current ← currentCounter sp k
  let next ← adjustedCounter current (counterDelta transitions k)
  some (k, if k = .total ∨ next ≠ 0 then some next else none)

def planRevision (sp : IndexSpaces) (predicate : QueryTermId) : Option (QueryTermId × Nat) :=
  match sp.revisions predicate with
  | .malformed => none
  | .missing => some (predicate, 1)
  | .value n => if n + 1 < 2 ^ 64 then some (predicate, n + 1) else none

def unionFlag (sp : IndexSpaces) : Option Bool :=
  match sp.counters .unionDuplicateFree with
  | .value 0 => some false
  | .value 1 => some true
  | _ => none

/-! ## The plan -/

def planChanges (slot : IndexSlot) (sp : IndexSpaces) (header : IndexHeader)
    (r : TermResolver) (transitions : List (QueryQuad × Bool)) : Option IndexUpdatePlan := do
  let unionDuplicateFree ← unionFlag sp
  let preserved := !unionDuplicateFree || unionPreserved sp transitions r.mappings
  let counters ← (touchedCounters transitions).mapM (planCounter sp transitions)
  let revisions ← (transitions.map (·.1.predicate)).dedup.mapM (planRevision sp)
  let counters := if unionDuplicateFree && !preserved then
    counters ++ [(.unionDuplicateFree, some 0)] else counters
  let totalDelta := counterDelta transitions .total
  let sourceLiveQuads ← adjustedCounter header.sourceLiveQuads totalDelta
  let indexedQuads ← adjustedCounter header.indexedQuads totalDelta
  if header.sourceEpoch + 1 ≥ 2 ^ 64 then none
  else
    let updatedTotal ← (counters.find? fun update => update.1 = .total).bind (·.2)
    if updatedTotal ≠ indexedQuads ∨ sourceLiveQuads ≠ indexedQuads then none
    else
      some
        { slot := slot
          transitions := transitions
          mappings := r.mappings
          counters := counters
          revisions := revisions
          header := some
            { header with
              state := .ready
              sourceEpoch := header.sourceEpoch + 1
              indexEpoch := header.sourceEpoch + 1
              sourceLiveQuads := sourceLiveQuads
              indexedQuads := indexedQuads
              nextQueryId := r.nextQueryId } }

def planIndexUpdate (slots : IndexSlot → IndexSpaces) (header : IndexHeader)
    (transitions : List NetQuadTransition) : Option IndexUpdatePlan := do
  let slot ← IndexSlot.decode header.activeSlot
  let sp := slots slot
  if sp.counters .total ≠ .value header.indexedQuads then none
  else
    let (r, changes) ← transitions.foldlM (planTransition sp)
      (⟨false, fun _ => none, [], header.nextQueryId⟩, [])
    if changes = [] then
      some ⟨slot, [], r.mappings, [], [], none⟩
    else planChanges slot sp header r changes

/-! ## Staging -/

/-- A counter as stored: the key is removed when there is no value. -/
def storedCounter : Option Nat → Stored Nat
  | some n => .value n
  | none => .missing

namespace IndexSpaces

def stageMapping (sp : IndexSpaces) (m : TermId × QueryTermId) : IndexSpaces :=
  { sp with
    termToQuery := Function.update sp.termToQuery m.1 (.value m.2)
    queryToTerm := Function.update sp.queryToTerm m.2 (.value m.1) }

def stageRow (sp : IndexSpaces) (c : QueryQuad × Bool) : IndexSpaces :=
  { sp with
    orders := fun o => if c.2 then (sp.orders o).insert c.1 else (sp.orders o).remove c.1 }

def stageCounter (sp : IndexSpaces) (update : IndexCounterKey × Option Nat) : IndexSpaces :=
  { sp with counters := Function.update sp.counters update.1 (storedCounter update.2) }

def stageRevision (sp : IndexSpaces) (update : QueryTermId × Nat) : IndexSpaces :=
  { sp with revisions := Function.update sp.revisions update.1 (.value update.2) }

/-- The slot with a plan's writes. -/
def stagePlan (sp : IndexSpaces) (plan : IndexUpdatePlan) : IndexSpaces :=
  let sp := plan.mappings.foldl stageMapping sp
  let sp := plan.transitions.foldl stageRow sp
  let sp := plan.counters.foldl stageCounter sp
  plan.revisions.foldl stageRevision sp

end IndexSpaces

/-- The next identifier after a plan is staged. -/
def IndexUpdatePlan.nextQueryId (plan : IndexUpdatePlan) (header : IndexHeader) : QueryTermId :=
  (plan.header.getD header).nextQueryId

end Craqle
