import Craqle.Index.Source

/-! # The database around the index

The durable state that commits and rebuilds share: the live source quads, the two slots, the
header that says which slot serves queries and in what state, the projection debts, and the
records of a rebuild.

A commit stages its writes from one snapshot (`stageIndexUpdate`) and commits them later, so a
staged update is a value of its own (`StagedUpdate`). A snapshot's sequence number is Fjall's;
it is a parameter where the code compares it with a header.
-/

namespace Craqle

/-! ## Records -/

inductive IndexHeaderRead where
  | absent
  | malformed
  | legacy (header : IndexHeader)
  | valid (header : IndexHeader)
  deriving DecidableEq

/-- The header of a read, as `fail_projection_debt` takes it. -/
def IndexHeaderRead.previous : IndexHeaderRead → Option IndexHeader
  | .valid header | .legacy header => some header
  | .absent | .malformed => none

inductive QueryBuildPhase where
  | clear
  | scan
  | replay
  | verify
  deriving DecidableEq

abbrev HeaderDigest := BitVec 256

structure QueryBuildRecord where
  slot : Nat
  sourceSequence : Nat
  sourceEpoch : Nat
  controlDigest : HeaderDigest
  trustedActive : Bool
  scanCursor : Option EncodedQuad
  replayCursor : Nat
  nextDelta : Nat
  deltaRows : Nat
  deltaBytes : Nat
  phase : QueryBuildPhase
  target : Option Nat
  deriving DecidableEq

structure QueryCleanupRecord where
  slot : Nat
  deriving DecidableEq

structure IndexDb where
  /-- The quads with a non-empty set of dots. -/
  source : Finset EncodedQuad
  slots : IndexSlot → IndexSpaces
  header : IndexHeaderRead
  debts : Finset Nat
  build : Option QueryBuildRecord
  cleanup : Option QueryCleanupRecord
  deltas : Nat → Option (List NetQuadTransition)

/-- What the code takes from outside: the hash of the stored header and the size of an encoded
delta. -/
structure IndexEnv where
  headerDigest : IndexHeaderRead → HeaderDigest
  encodedBytes : List NetQuadTransition → Nat

/-! ## Admission -/

/-- The slot that serves queries. -/
def activeQuerySlot : IndexHeaderRead → Option IndexSlot
  | .valid header => IndexSlot.decode header.activeSlot
  | .legacy _ => some .primary
  | .absent | .malformed => none

def snapshotCounter (db : IndexDb) (k : IndexCounterKey) : Stored Nat :=
  match activeQuerySlot db.header with
  | some slot => (db.slots slot).counters k
  | none => .missing

def headerAdmission (db : IndexDb) (sequence : Nat) (header : IndexHeader) : Bool :=
  match header.state with
  | .building | .failed _ => false
  | .ready =>
    if header.readyIsCoherent = false then false
    else if header.fitsSnapshot sequence = false then false
    else decide (snapshotCounter db .total = .value header.indexedQuads)

/-- Whether a snapshot's index is trusted. -/
def snapshotAdmission (db : IndexDb) (sequence : Nat) : Bool :=
  if db.debts.Nonempty then false
  else
    match db.header with
    | .absent | .malformed | .legacy _ => false
    | .valid header => headerAdmission db sequence header

/-! ## Staging -/

/-- What a staged update does to the serving slot and the header. -/
inductive IndexWrite where
  | keep
  | plan (plan : IndexUpdatePlan)
  | failure (header : IndexHeader)

/-- What a staged update does to the records of a build. -/
inductive DeltaWrite where
  | keep
  | append (id : Nat) (transitions : List NetQuadTransition) (build : QueryBuildRecord)
  | overflow (cleanup : QueryCleanupRecord)

structure StagedUpdate where
  index : IndexWrite
  delta : DeltaWrite

def qvDeltaRows : Nat := 65536

def qvDeltaBytes : Nat := 64 * 1048576

/-- Append a delta for a build that has left its clear phase. A delta past the limits gives the
build up. -/
def stageQueryDelta (env : IndexEnv) (build : Option QueryBuildRecord)
    (transitions : List NetQuadTransition) : Option DeltaWrite :=
  match build with
  | none => some .keep
  | some build =>
    if build.phase = .clear then some .keep
    else if transitions = [] then some .keep
    else
      let nextRows := saturatingAdd build.deltaRows transitions.length
      let nextBytes := saturatingAdd build.deltaBytes (env.encodedBytes transitions)
      if nextRows > qvDeltaRows ∨ nextBytes > qvDeltaBytes then some (.overflow ⟨build.slot⟩)
      else if build.nextDelta + 1 ≥ 2 ^ 64 then none
      else some (.append build.nextDelta transitions
        { build with
          nextDelta := build.nextDelta + 1
          deltaRows := nextRows
          deltaBytes := nextBytes })

def stageIndex (header : IndexHeaderRead) (slots : IndexSlot → IndexSpaces) (buildActive : Bool)
    (sequence : Nat) (transitions : List NetQuadTransition) : IndexWrite :=
  match header with
  | .absent | .legacy _ => .keep
  | .malformed =>
    if buildActive = false then .failure (.failedFrom none "metadata-malformed") else .keep
  | .valid header =>
    match header.state with
    | .building | .failed _ => .keep
    | .ready =>
      if header.readyIsCoherent = false ∨ header.fitsSnapshot sequence = false then
        .failure (.failedFrom (some header) "ready-metadata-inconsistent")
      else
        match planIndexUpdate slots header transitions with
        | some plan => .plan plan
        | none => .failure (.failedFrom (some header) "maintenance-anomaly")

def stageIndexUpdate (env : IndexEnv) (db : IndexDb) (sequence : Nat)
    (mutations : List QuadMutation) : Option StagedUpdate := do
  let transitions := coalescedTransitions mutations
  let delta ← stageQueryDelta env db.build transitions
  some ⟨stageIndex db.header db.slots db.build.isSome sequence transitions, delta⟩

/-! ## Committing -/

namespace IndexWrite

def writeSlots (slots : IndexSlot → IndexSpaces) : IndexWrite → IndexSlot → IndexSpaces
  | .plan p => Function.update slots p.slot ((slots p.slot).stagePlan p)
  | .keep | .failure _ => slots

def writeHeader (header : IndexHeaderRead) : IndexWrite → IndexHeaderRead
  | .keep => header
  | .failure header => .valid header
  | .plan p =>
    match p.header with
    | some header => .valid header
    | none => header

end IndexWrite

namespace DeltaWrite

def writeBuild (build : Option QueryBuildRecord) : DeltaWrite → Option QueryBuildRecord
  | .keep => build
  | .append _ _ build => some build
  | .overflow _ => none

def writeCleanup (cleanup : Option QueryCleanupRecord) : DeltaWrite → Option QueryCleanupRecord
  | .overflow cleanup => some cleanup
  | .keep | .append _ _ _ => cleanup

def writeDeltas (deltas : Nat → Option (List NetQuadTransition)) :
    DeltaWrite → Nat → Option (List NetQuadTransition)
  | .append id transitions _ => Function.update deltas id (some transitions)
  | .keep | .overflow _ => deltas

end DeltaWrite

namespace IndexDb

def writeSource (db : IndexDb) (mutations : List QuadMutation) : IndexDb :=
  { db with source := mutate db.source mutations }

def writeSlot (db : IndexDb) (slot : IndexSlot) (spaces : IndexSpaces) : IndexDb :=
  { db with slots := Function.update db.slots slot spaces }

def write (db : IndexDb) (update : StagedUpdate) : IndexDb :=
  { db with
    slots := update.index.writeSlots db.slots
    header := update.index.writeHeader db.header
    build := update.delta.writeBuild db.build
    cleanup := update.delta.writeCleanup db.cleanup
    deltas := update.delta.writeDeltas db.deltas }

def insertDebt (db : IndexDb) (debt : Nat) : IndexDb :=
  { db with debts := insert debt db.debts }

def removeDebt (db : IndexDb) (debt : Nat) : IndexDb :=
  { db with debts := db.debts.erase debt }

/-- The batch of `fail_projection_debt`, for the header it has read. -/
def failDebt (db : IndexDb) (debt : Nat) (previous : Option IndexHeader) : IndexDb :=
  { db.removeDebt debt with
    header := .valid (.failedFrom previous "concurrent-catch-up-failed") }

/-- All debts at once, when no commit is in flight that could settle them. -/
def failUnrepairedDebt (db : IndexDb) : IndexDb :=
  if db.debts = ∅ then db
  else
    { db with
      debts := ∅
      header := .valid (.failedFrom db.header.previous "projection-debt-unrepaired") }

end IndexDb

end Craqle
