import Craqle.Index.Database
import Mathlib.Data.Finset.Sort
import Mathlib.Data.Prod.Lex

/-! # The parts of a rebuild

What a rebuild does between two moments at which others can act: clear a keyspace of the
inactive slot, build a chunk of source rows into it, prove its triples unique, replay one
delta, and check the coverage before the switch.
-/

namespace Craqle

/-! ## Clearing a slot -/

/-- The keyspaces of a slot. The counters and the revisions share one. -/
inductive SlotSpace where
  | order (order : IndexKeyOrder)
  | termToQuery
  | queryToTerm
  | metadata
  deriving DecidableEq

def SlotSpace.all : List SlotSpace :=
  IndexKeyOrder.all.map .order ++ [.termToQuery, .queryToTerm, .metadata]

/-- A stored value once the keys of `part` are removed. -/
def Stored.without {α : Type} (current part : Stored α) : Stored α :=
  match part with
  | .missing => current
  | .malformed | .value _ => .missing

def OrderSpace.without (current part : OrderSpace) : OrderSpace :=
  ⟨current.rows \ part.keys, current.spoiled \ part.keys⟩

namespace IndexSpaces

/-- Remove the keys that `part` has in one keyspace. -/
def clearSpace (sp part : IndexSpaces) : SlotSpace → IndexSpaces
  | .order o =>
    { sp with orders := Function.update sp.orders o ((sp.orders o).without (part.orders o)) }
  | .termToQuery =>
    { sp with termToQuery := fun t => (sp.termToQuery t).without (part.termToQuery t) }
  | .queryToTerm =>
    { sp with queryToTerm := fun i => (sp.queryToTerm i).without (part.queryToTerm i) }
  | .metadata =>
    { sp with
      counters := fun k => (sp.counters k).without (part.counters k)
      revisions := fun p => (sp.revisions p).without (part.revisions p) }

/-- The keys of a keyspace are among those of `seen`. -/
def KeysIn (sp seen : IndexSpaces) : SlotSpace → Prop
  | .order o => (sp.orders o).keys ⊆ (seen.orders o).keys
  | .termToQuery => ∀ t, seen.termToQuery t = .missing → sp.termToQuery t = .missing
  | .queryToTerm => ∀ i, seen.queryToTerm i = .missing → sp.queryToTerm i = .missing
  | .metadata =>
    (∀ k, seen.counters k = .missing → sp.counters k = .missing) ∧
      ∀ p, seen.revisions p = .missing → sp.revisions p = .missing

/-- A keyspace without keys. -/
def EmptyIn (sp : IndexSpaces) : SlotSpace → Prop
  | .order o => sp.orders o = ⟨∅, ∅⟩
  | .termToQuery => ∀ t, sp.termToQuery t = .missing
  | .queryToTerm => ∀ i, sp.queryToTerm i = .missing
  | .metadata => (∀ k, sp.counters k = .missing) ∧ ∀ p, sp.revisions p = .missing

end IndexSpaces

/-! ## Chunks of source rows -/

def qvBuildRows : Nat := 1024

/-- The identifier of a term in the slot that is built: known to the chunk, stored with a
matching reverse mapping, or new. -/
def rebuildQueryId (sp : IndexSpaces) (t : TermId) (r : TermResolver) :
    Option (QueryTermId × TermResolver) :=
  match r.resolved t with
  | some i => some (i, r)
  | none =>
    match sp.termToQuery t with
    | .malformed => none
    | .value i => if sp.queryToTerm i ≠ .value t then none else some (i, r.remember t i)
    | .missing =>
      if r.nextQueryId + 1 ≥ 2 ^ 64 then none
      else if sp.queryToTerm r.nextQueryId ≠ .missing then none
      else some (r.nextQueryId, r.allocate t)

def countOrZero : Stored Nat → Option Nat
  | .missing => some 0
  | .malformed => none
  | .value n => some n

/-- A counter of the chunk: what is stored plus the rows of the chunk that it counts. -/
def chunkCounter (sp : IndexSpaces) (changes : List (QueryQuad × Bool)) (k : IndexCounterKey) :
    Option (IndexCounterKey × Option Nat) := do
  let current ← countOrZero (sp.counters k)
  let increment := (changes.filter fun c => k.matchesQuad c.1).length
  if current + increment < 2 ^ 64 then some (k, some (current + increment)) else none

def chunkRow (sp : IndexSpaces) (acc : TermResolver × List (QueryQuad × Bool)) (e : EncodedQuad) :
    Option (TermResolver × List (QueryQuad × Bool)) := do
  let (q, r) ← resolveTerms (rebuildQueryId sp) e acc.1
  some (r, acc.2 ++ [(q, true)])

/-- The batch of one chunk, as a plan without a header, and the next identifier. -/
def buildIndexChunk (slot : IndexSlot) (sp : IndexSpaces) (quads : List EncodedQuad)
    (next : QueryTermId) : Option (IndexUpdatePlan × QueryTermId) := do
  let (r, changes) ← quads.foldlM (chunkRow sp) (⟨true, fun _ => none, [], next⟩, [])
  let counters ← (touchedCounters changes).mapM (chunkCounter sp changes)
  let revisions ← (changes.map (·.1.predicate)).dedup.mapM (planRevision sp)
  some (⟨slot, changes, r.mappings, counters, revisions, none⟩, r.nextQueryId)

/-! ## The duplicate-free flag -/

/-- A key of the order subject, predicate, object, graph. -/
abbrev SpogKey := Nat ×ₗ Nat ×ₗ Nat ×ₗ Nat

def spogKey (q : QueryQuad) : SpogKey :=
  toLex (q.subject, toLex (q.predicate, toLex (q.object, q.graph)))

def decodeSpogKey (key : SpogKey) : QueryQuad :=
  ⟨(ofLex (ofLex (ofLex key).2).2).2, (ofLex key).1, (ofLex (ofLex key).2).1,
    (ofLex (ofLex (ofLex key).2).2).1⟩

/-- The loop over the keys in order: no triple follows itself. -/
def spogUnique (previous : Option (QueryTermId × QueryTermId × QueryTermId)) :
    List SpogKey → Bool
  | [] => true
  | key :: keys =>
    let current := (decodeSpogKey key).spo
    if previous = some current then false else spogUnique (some current) keys

def indexUnionUnique (sp : IndexSpaces) : Bool :=
  spogUnique none (((sp.orders .spog).keys.image spogKey).sort (· ≤ ·))

/-! ## Records of a rebuild -/

/-- The slot that a rebuild leaves alone. -/
def rebuildActive : IndexHeaderRead → Option IndexSlot
  | .valid header | .legacy header => IndexSlot.decode header.activeSlot
  | .absent | .malformed => some .primary

def createdBuild (env : IndexEnv) (db : IndexDb) (inactive : IndexSlot) : QueryBuildRecord where
  slot := inactive.encode
  sourceSequence := 0
  sourceEpoch := 0
  controlDigest := env.headerDigest db.header
  trustedActive := false
  scanCursor := none
  replayCursor := 0
  nextDelta := 1
  deltaRows := 0
  deltaBytes := 0
  phase := .clear
  target := none

/-- The record once the slot is clear. -/
def capturedBuild (env : IndexEnv) (db : IndexDb) (sequence : Nat) (current : QueryBuildRecord) :
    QueryBuildRecord :=
  { current with
    controlDigest := env.headerDigest db.header
    trustedActive := match db.header with
      | .valid _ => snapshotAdmission db sequence
      | _ => false
    phase := .scan }

/-- The record with the source snapshot that the scan reads. -/
def QueryBuildRecord.withSource (build : QueryBuildRecord) (previous : IndexHeader)
    (sequence : Nat) : QueryBuildRecord :=
  { build with
    sourceSequence := sequence
    sourceEpoch := if build.trustedActive then previous.sourceEpoch else sequence }

/-- The header of the built slot before any delta. -/
def candidateHeader (inactive : IndexSlot) (build : QueryBuildRecord) (rows generation : Nat)
    (next : QueryTermId) : IndexHeader where
  activeSlot := inactive.encode
  state := .building
  sourceEpoch := build.sourceEpoch
  indexEpoch := build.sourceEpoch
  sourceLiveQuads := rows
  indexedQuads := rows
  lastBuildSequence := build.sourceSequence
  queryIdGeneration := generation
  nextQueryId := next

/-- The scanned slot with its total and its flag. -/
def IndexSpaces.coverage (sp : IndexSpaces) (rows : Nat) : IndexSpaces :=
  { sp with
    counters := Function.update (Function.update sp.counters .total (.value rows))
      .unionDuplicateFree (.value (indexUnionUnique sp).toNat) }

/-! ## Replay and switch -/

/-- Replay the next delta into the candidate's slot, if there is one below the target. -/
def replayQueryDelta (db : IndexDb) (build : QueryBuildRecord) (candidate : IndexHeader)
    (target : Nat) : Option (IndexDb × QueryBuildRecord × IndexHeader) := do
  let current ← db.build
  if current.replayCursor ≠ build.replayCursor then none
  else if current.replayCursor < target then
    if current.replayCursor + 1 ≥ 2 ^ 64 then none
    else
      let transitions ← db.deltas (current.replayCursor + 1)
      let plan ← planIndexUpdate db.slots candidate transitions
      let build := { current with
        replayCursor := current.replayCursor + 1
        phase := .replay
        target := some target }
      some
        ({ db.writeSlot plan.slot ((db.slots plan.slot).stagePlan plan) with build := some build },
          build, (plan.header.map fun h => { h with state := .building }).getD candidate)
  else some (db, current, candidate)

/-- The header still is the one that the build started from, or has followed the same commits. -/
def activeMatches (env : IndexEnv) (db : IndexDb) (build : QueryBuildRecord)
    (candidate : IndexHeader) (active : IndexSlot) : Bool :=
  if build.trustedActive then
    match db.header with
    | .valid current =>
      IndexSlot.decode current.activeSlot = some active &&
        candidate.sourceEpoch = current.sourceEpoch &&
        candidate.sourceLiveQuads = current.sourceLiveQuads
    | .absent | .legacy _ | .malformed => false
  else decide (env.headerDigest db.header = build.controlDigest)

/-- The check before the switch. -/
def finalCoverage (env : IndexEnv) (db : IndexDb) (build : QueryBuildRecord)
    (candidate : IndexHeader) (active : IndexSlot) (target : Nat) : Bool :=
  activeMatches env db build candidate active && build.slot = active.other.encode &&
    build.replayCursor = target && candidate.indexedQuads = candidate.sourceLiveQuads

def IndexDb.switch (db : IndexDb) (candidate : IndexHeader) (active : IndexSlot) : IndexDb :=
  { db with
    header := .valid { candidate with state := .ready }
    build := none
    cleanup := some ⟨active.encode⟩ }

end Craqle
