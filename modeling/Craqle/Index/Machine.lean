import Craqle.Index.Build
import Craqle.Lib.Transition

/-! # Commits and maintenance, step by step

The interleavings of source commits with index maintenance. Every commit of a Fjall batch is a
step of its own, and so is every acquisition of the query-view gate, so that others can act in
between. What follows a commit without reading or writing the database again, such as
publishing the cache and giving the gate back, is part of its step.

Commits to one graph are serialized by the graph's guard, so there is at most one for each
graph. All of a commit happens under the read side of the projection lock; the write side is
free when no commit is in flight. One maintenance task runs at a time.

The order in which waiters get the gate is left open, and so are the pages in which keys are
cleared and the outcome of the verification before the switch. A step may fail for reasons not
modelled here; then the task stops where it is (`abandon`, `stop`). The counter of query-id
generations is left out: a candidate has any generation.
-/

namespace Craqle

open Transition (System)

/-! ## Commits -/

inductive GateOwner where
  | commit (graph : TermId)
  | maintenance
  deriving DecidableEq

inductive CommitPhase where
  /-- The locks are held. -/
  | started
  /-- The gate was taken. -/
  | missed
  /-- A build is there, so the commit waits for the gate. -/
  | waiting
  | owning
  | staged (update : StagedUpdate)
  /-- No build is there, so the commit goes on without the gate. -/
  | indebted
  /-- The source is committed together with a debt. -/
  | owing (debt : Nat)
  | repairing (debt : Nat)
  | repairStaged (debt : Nat) (update : StagedUpdate)
  | failing (debt : Nat)
  | failStaged (debt : Nat) (previous : Option IndexHeader)

structure Commit where
  mutations : List QuadMutation
  phase : CommitPhase

/-- The moves of a commit that write nothing: the gate and the phase before and after, where no
phase is the end. -/
inductive CommitMove (env : IndexEnv) (db : IndexDb) (graph : TermId)
    (mutations : List QuadMutation) :
    Option GateOwner → CommitPhase → Option GateOwner → Option CommitPhase → Prop
  | take : CommitMove env db graph mutations none .started (some (.commit graph)) (some .owning)
  | miss {o : GateOwner} :
      CommitMove env db graph mutations (some o) .started (some o) (some .missed)
  | owe {gate : Option GateOwner} (hbuild : db.build = none) :
      CommitMove env db graph mutations gate .missed gate (some .indebted)
  | wait {gate : Option GateOwner} {build : QueryBuildRecord} (hbuild : db.build = some build) :
      CommitMove env db graph mutations gate .missed gate (some .waiting)
  | granted : CommitMove env db graph mutations none .waiting (some (.commit graph)) (some .owning)
  | busy {o : GateOwner} : CommitMove env db graph mutations (some o) .waiting (some o) none
  | stage {gate : Option GateOwner} {sequence : Nat} {update : StagedUpdate}
      (hstage : stageIndexUpdate env db sequence mutations = some update) :
      CommitMove env db graph mutations gate .owning gate (some (.staged update))
  | refuse {gate : Option GateOwner} : CommitMove env db graph mutations gate .owning none none
  | abandon {gate : Option GateOwner} {update : StagedUpdate} :
      CommitMove env db graph mutations gate (.staged update) none none
  | abandonDebt {gate : Option GateOwner} :
      CommitMove env db graph mutations gate .indebted gate none
  | grantedRepair {debt : Nat} :
      CommitMove env db graph mutations none (.owing debt) (some (.commit graph))
        (some (.repairing debt))
  | late {o : GateOwner} {debt : Nat} :
      CommitMove env db graph mutations (some o) (.owing debt) (some o) (some (.failing debt))
  | stageRepair {gate : Option GateOwner} {debt sequence : Nat} {update : StagedUpdate}
      (hstage : stageIndexUpdate env db sequence mutations = some update) :
      CommitMove env db graph mutations gate (.repairing debt) gate
        (some (.repairStaged debt update))
  | refuseRepair {gate : Option GateOwner} {debt : Nat} :
      CommitMove env db graph mutations gate (.repairing debt) none (some (.failing debt))
  | abandonRepair {gate : Option GateOwner} {debt : Nat} {update : StagedUpdate} :
      CommitMove env db graph mutations gate (.repairStaged debt update) none
        (some (.failing debt))
  | readHeader {gate : Option GateOwner} {debt : Nat} :
      CommitMove env db graph mutations gate (.failing debt) gate
        (some (.failStaged debt db.header.previous))
  | abandonFail {gate : Option GateOwner} {debt : Nat} {previous : Option IndexHeader} :
      CommitMove env db graph mutations gate (.failStaged debt previous) gate none

/-! ## Maintenance -/

inductive AfterClear where
  | rebuild (active : IndexSlot)
  | retire (build : QueryBuildRecord)
  | cleanup

/-- What a rebuild keeps in memory from its capture on. -/
structure Rebuild where
  active : IndexSlot
  /-- The source that the scan reads. -/
  snapshot : Finset EncodedQuad
  build : QueryBuildRecord

def Rebuild.inactive (r : Rebuild) : IndexSlot := r.active.other

inductive Maintenance where
  | idle
  /-- Clear the first keyspace of the list; its keys have been read, or will be. -/
  | clearing (slot : IndexSlot) (todo : List SlotSpace) (seen : Option IndexSpaces)
      (after : AfterClear)
  /-- The slot is clear and the record says so; the lock and the gate are held. -/
  | capturing (active : IndexSlot) (previous : IndexHeader) (build : QueryBuildRecord)
  | scanning (r : Rebuild) (remaining : List EncodedQuad) (rows : Nat) (next : QueryTermId)
  | cursor (r : Rebuild) (remaining : List EncodedQuad) (rows : Nat) (next : QueryTermId)
      (cursor : Option EncodedQuad) (owned : Bool)
  | covered (r : Rebuild) (candidate : IndexHeader)
  | replaying (r : Rebuild) (candidate : IndexHeader) (build : QueryBuildRecord) (target : Nat)
      (owned : Bool)
  | verifying (r : Rebuild) (candidate : IndexHeader) (build : QueryBuildRecord) (target : Nat)
  | verified (r : Rebuild) (candidate : IndexHeader)
  | switching (r : Rebuild) (candidate : IndexHeader) (build : QueryBuildRecord) (target : Nat)
  | recovering
  | forgetting (cleanup : Bool)
  | cleanup

/-- The write side of the projection lock is held. -/
def Maintenance.locks : Maintenance → Bool
  | .capturing .. => true
  | _ => false

structure IndexState where
  db : IndexDb
  opened : Bool
  gate : Option GateOwner
  debtNext : Nat
  commits : TermId → Option Commit
  maintenance : Maintenance

namespace IndexState

/-- The write side of the projection lock is free. -/
def Quiet (s : IndexState) : Prop := ∀ graph, s.commits graph = none

def setCommit (s : IndexState) (graph : TermId) (c : Option Commit) : IndexState :=
  { s with commits := Function.update s.commits graph c }

def setBuild (s : IndexState) (build : Option QueryBuildRecord) : IndexState :=
  { s with db := { s.db with build := build } }

end IndexState

inductive RebuildStep (env : IndexEnv) (s : IndexState) : IndexState → Prop
  | create {active : IndexSlot} (hidle : s.maintenance = .idle) (hopened : s.opened = true)
      (hquiet : s.Quiet) (hgate : s.gate = none) (hdebts : s.db.debts = ∅)
      (hbuild : s.db.build = none) (hactive : rebuildActive s.db.header = some active) :
      RebuildStep env s
        { s.setBuild (some (createdBuild env s.db active.other)) with
          maintenance := .clearing active.other SlotSpace.all none (.rebuild active) }
  | capture {slot active : IndexSlot} {build : QueryBuildRecord} {sequence : Nat}
      (hphase : s.maintenance = .clearing slot [] none (.rebuild active))
      (hquiet : s.Quiet) (hgate : s.gate = none) (hbuild : s.db.build = some build)
      (hslot : build.slot = active.other.encode) (hclear : build.phase = .clear)
      (hdebts : s.db.debts = ∅)
      (hactive : IndexSlot.decode (s.db.header.previous.getD .emptyReady).activeSlot =
        some active) :
      RebuildStep env s
        { s.setBuild (some (capturedBuild env s.db sequence build)) with
          gate := some .maintenance
          maintenance := .capturing active (s.db.header.previous.getD .emptyReady)
            (capturedBuild env s.db sequence build) }
  | captureSource {active : IndexSlot} {previous : IndexHeader} {build : QueryBuildRecord}
      {sequence : Nat} {rows : List EncodedQuad}
      (hphase : s.maintenance = .capturing active previous build)
      (hnodup : rows.Nodup) (hrows : rows.toFinset = s.db.source) :
      RebuildStep env s
        { s.setBuild (some (build.withSource previous sequence)) with
          gate := none
          maintenance := .scanning ⟨active, s.db.source, build.withSource previous sequence⟩
            rows 0 0 }
  | scanChunk {r : Rebuild} {remaining : List EncodedQuad} {rows : Nat}
      {next next' : QueryTermId} {plan : IndexUpdatePlan}
      (hphase : s.maintenance = .scanning r remaining rows next) (hmore : remaining ≠ [])
      (hchunk : buildIndexChunk r.inactive (s.db.slots r.inactive) (remaining.take qvBuildRows)
        next = some (plan, next')) :
      RebuildStep env s
        { s with
          db := s.db.writeSlot plan.slot ((s.db.slots plan.slot).stagePlan plan)
          maintenance := .cursor r (remaining.drop qvBuildRows)
            (rows + (remaining.take qvBuildRows).length) next'
            (remaining.take qvBuildRows).getLast? false }
  | acquireCursor {r : Rebuild} {remaining : List EncodedQuad} {rows : Nat}
      {next : QueryTermId} {cursor : Option EncodedQuad}
      (hphase : s.maintenance = .cursor r remaining rows next cursor false)
      (hgate : s.gate = none) :
      RebuildStep env s
        { s with
          gate := some .maintenance
          maintenance := .cursor r remaining rows next cursor true }
  | writeCursor {r : Rebuild} {remaining : List EncodedQuad} {rows : Nat}
      {next : QueryTermId} {cursor : Option EncodedQuad} {build : QueryBuildRecord}
      (hphase : s.maintenance = .cursor r remaining rows next cursor true)
      (hbuild : s.db.build = some build) :
      RebuildStep env s
        { s.setBuild (some { build with scanCursor := cursor }) with
          gate := none
          maintenance := .scanning r remaining rows next }
  | cover {r : Rebuild} {rows generation : Nat} {next : QueryTermId}
      (hphase : s.maintenance = .scanning r [] rows next) :
      RebuildStep env s
        { s with
          db := s.db.writeSlot r.inactive ((s.db.slots r.inactive).coverage rows)
          maintenance := .covered r (candidateHeader r.inactive r.build rows generation next) }
  | readTarget {r : Rebuild} {candidate : IndexHeader} {build : QueryBuildRecord}
      (hphase : s.maintenance = .covered r candidate) (hbuild : s.db.build = some build) :
      RebuildStep env s
        { s with maintenance := .replaying r candidate build (build.nextDelta - 1) false }
  | acquireReplay {r : Rebuild} {candidate : IndexHeader} {build : QueryBuildRecord} {target : Nat}
      (hphase : s.maintenance = .replaying r candidate build target false)
      (hmore : build.replayCursor < target) (hgate : s.gate = none) :
      RebuildStep env s
        { s with
          gate := some .maintenance
          maintenance := .replaying r candidate build target true }
  | replay {r : Rebuild} {candidate candidate' : IndexHeader} {build build' : QueryBuildRecord}
      {target : Nat} {db' : IndexDb}
      (hphase : s.maintenance = .replaying r candidate build target true)
      (hreplay : replayQueryDelta s.db build candidate target = some (db', build', candidate')) :
      RebuildStep env s
        { s with
          db := db'
          gate := none
          maintenance := .replaying r candidate' build' target false }
  | acquireVerify {r : Rebuild} {candidate : IndexHeader} {build current : QueryBuildRecord}
      {target : Nat} (hphase : s.maintenance = .replaying r candidate build target false)
      (hdone : target ≤ build.replayCursor) (hgate : s.gate = none)
      (hbuild : s.db.build = some current) :
      RebuildStep env s
        { s with
          gate := some .maintenance
          maintenance := .verifying r candidate current (current.nextDelta - 1) }
  | verifyReplay {r : Rebuild} {candidate candidate' : IndexHeader}
      {build build' : QueryBuildRecord} {target : Nat} {db' : IndexDb}
      (hphase : s.maintenance = .verifying r candidate build target)
      (hmore : build.replayCursor < target)
      (hreplay : replayQueryDelta s.db build candidate target = some (db', build', candidate')) :
      RebuildStep env s
        { s with
          db := db'
          maintenance := .verifying r candidate' build' target }
  | verify {r : Rebuild} {candidate : IndexHeader} {build : QueryBuildRecord} {target : Nat}
      (hphase : s.maintenance = .verifying r candidate build target)
      (hdone : target ≤ build.replayCursor) :
      RebuildStep env s
        { s.setBuild (some { build with
            phase := .verify
            target := some target }) with
          gate := none
          maintenance := .verified r candidate }
  | acquireSwitch {r : Rebuild} {candidate : IndexHeader} {build : QueryBuildRecord}
      (hphase : s.maintenance = .verified r candidate) (hgate : s.gate = none)
      (hbuild : s.db.build = some build) :
      RebuildStep env s
        { s with
          gate := some .maintenance
          maintenance := .switching r candidate build (build.nextDelta - 1) }
  | switchReplay {r : Rebuild} {candidate candidate' : IndexHeader}
      {build build' : QueryBuildRecord} {target : Nat} {db' : IndexDb}
      (hphase : s.maintenance = .switching r candidate build target)
      (hmore : build.replayCursor < target)
      (hreplay : replayQueryDelta s.db build candidate target = some (db', build', candidate')) :
      RebuildStep env s
        { s with
          db := db'
          maintenance := .switching r candidate' build' target }

/-- The steps of `recover_query_build`, of clearing a slot, and the end of a task at any time. -/
inductive RecoverStep (s : IndexState) : IndexState → Prop
  | clearRead {slot : IndexSlot} {space : SlotSpace} {todo : List SlotSpace} {after : AfterClear}
      (hphase : s.maintenance = .clearing slot (space :: todo) none after) :
      RecoverStep s
        { s with maintenance := .clearing slot (space :: todo) (some (s.db.slots slot)) after }
  | clearPage {slot : IndexSlot} {space : SlotSpace} {todo : List SlotSpace} {after : AfterClear}
      {seen page : IndexSpaces}
      (hphase : s.maintenance = .clearing slot (space :: todo) (some seen) after)
      (hpage : page.KeysIn seen space) :
      RecoverStep s
        { s with
          db := s.db.writeSlot slot ((s.db.slots slot).clearSpace page space)
          maintenance := .clearing slot (space :: todo) (some seen) after }
  | clearSpace {slot : IndexSlot} {space : SlotSpace} {todo : List SlotSpace} {after : AfterClear}
      {seen : IndexSpaces}
      (hphase : s.maintenance = .clearing slot (space :: todo) (some seen) after) :
      RecoverStep s
        { s with
          db := s.db.writeSlot slot ((s.db.slots slot).clearSpace seen space)
          maintenance := .clearing slot todo none after }
  | start (hidle : s.maintenance = .idle) : RecoverStep s { s with maintenance := .recovering }
  | retire {build : QueryBuildRecord} {slot : IndexSlot} (hphase : s.maintenance = .recovering)
      (hbuild : s.db.build = some build) (hslot : IndexSlot.decode build.slot = some slot)
      (hactive : activeQuerySlot s.db.header ≠ some slot) :
      RecoverStep s { s with maintenance := .clearing slot SlotSpace.all none (.retire build) }
  | retired {slot : IndexSlot} {build current : QueryBuildRecord}
      (hphase : s.maintenance = .clearing slot [] none (.retire build)) (hquiet : s.Quiet)
      (hgate : s.gate = none) (hbuild : s.db.build = some current)
      (hslot : current.slot = build.slot)
      (hsequence : current.sourceSequence = build.sourceSequence)
      (hdigest : current.controlDigest = build.controlDigest) :
      RecoverStep s { s.setBuild none with maintenance := .forgetting false }
  | noBuild (hphase : s.maintenance = .recovering) (hbuild : s.db.build = none) :
      RecoverStep s { s with maintenance := .cleanup }
  | forgetPage {cleanup : Bool} {page : Finset Nat} (hphase : s.maintenance = .forgetting cleanup) :
      RecoverStep s
        { s with
          db := { s.db with deltas := fun id => if id ∈ page then none else s.db.deltas id } }
  | forgotten (hphase : s.maintenance = .forgetting false) (hnone : ∀ id, s.db.deltas id = none) :
      RecoverStep s { s with maintenance := .cleanup }
  | noCleanup (hphase : s.maintenance = .cleanup) (hcleanup : s.db.cleanup = none) :
      RecoverStep s { s with maintenance := .idle }
  | clean {record : QueryCleanupRecord} {slot : IndexSlot} (hphase : s.maintenance = .cleanup)
      (hcleanup : s.db.cleanup = some record) (hslot : IndexSlot.decode record.slot = some slot)
      (hactive : activeQuerySlot s.db.header ≠ some slot) :
      RecoverStep s { s with maintenance := .clearing slot SlotSpace.all none .cleanup }
  | cleaned {slot : IndexSlot} (hphase : s.maintenance = .clearing slot [] none .cleanup) :
      RecoverStep s { s with maintenance := .forgetting true }
  | cleanedUp (hphase : s.maintenance = .forgetting true)
      (hnone : ∀ id, s.db.deltas id = none) :
      RecoverStep s
        { s with
          db := { s.db with cleanup := none }
          maintenance := .idle }
  | stop :
      RecoverStep s
        { s with
          gate := if s.gate = some .maintenance then none else s.gate
          maintenance := .idle }

/-! ## The system -/

/-- The kinds of steps that results tell apart. -/
inductive IndexAction where
  | commit (graph : TermId)
  /-- The batch of `fail_projection_debt`. -/
  | failDebt (graph : TermId)
  /-- Any step of a rebuild or a recovery but the switch. -/
  | maintain
  | switch
  | failUnrepaired
  | crash
  | reopen

inductive IndexStep (env : IndexEnv) (s : IndexState) : IndexAction → IndexState → Prop
  | start {graph : TermId} {mutations : List QuadMutation} (hopened : s.opened = true)
      (hlock : s.maintenance.locks = false) (hguard : s.commits graph = none)
      (hrecorded : Recorded s.db.source mutations)
      (hgraph : ∀ m ∈ mutations, m.change.1.graph = graph) :
      IndexStep env s (.commit graph) (s.setCommit graph (some ⟨mutations, .started⟩))
  | move {graph : TermId} {c : Commit} {gate : Option GateOwner} {phase : Option CommitPhase}
      (hcommit : s.commits graph = some c)
      (hmove : CommitMove env s.db graph c.mutations s.gate c.phase gate phase) :
      IndexStep env s (.commit graph)
        { s.setCommit graph (phase.map fun phase => ⟨c.mutations, phase⟩) with gate := gate }
  | write {graph : TermId} {mutations : List QuadMutation} {update : StagedUpdate}
      (hcommit : s.commits graph = some ⟨mutations, .staged update⟩) :
      IndexStep env s (.commit graph)
        { s.setCommit graph none with
          db := (s.db.writeSource mutations).write update
          gate := none }
  | writeDebt {graph : TermId} {mutations : List QuadMutation}
      (hcommit : s.commits graph = some ⟨mutations, .indebted⟩) :
      IndexStep env s (.commit graph)
        { s.setCommit graph (some ⟨mutations, .owing s.debtNext⟩) with
          db := (s.db.writeSource mutations).insertDebt s.debtNext
          debtNext := s.debtNext + 1 }
  | writeRepair {graph : TermId} {mutations : List QuadMutation} {debt : Nat}
      {update : StagedUpdate}
      (hcommit : s.commits graph = some ⟨mutations, .repairStaged debt update⟩) :
      IndexStep env s (.commit graph)
        { s.setCommit graph none with
          db := (s.db.write update).removeDebt debt
          gate := none }
  | writeFailure {graph : TermId} {mutations : List QuadMutation} {debt : Nat}
      {previous : Option IndexHeader}
      (hcommit : s.commits graph = some ⟨mutations, .failStaged debt previous⟩) :
      IndexStep env s (.failDebt graph)
        { s.setCommit graph none with db := s.db.failDebt debt previous }
  | rebuild {s' : IndexState} (hstep : RebuildStep env s s') : IndexStep env s .maintain s'
  | recover {s' : IndexState} (hstep : RecoverStep s s') : IndexStep env s .maintain s'
  | switch {r : Rebuild} {candidate : IndexHeader} {build : QueryBuildRecord} {target : Nat}
      (hphase : s.maintenance = .switching r candidate build target)
      (hdone : target ≤ build.replayCursor)
      (hcoverage : finalCoverage env s.db build candidate r.active target = true) :
      IndexStep env s .switch
        { s with
          db := s.db.switch candidate r.active
          gate := none
          maintenance := .recovering }
  | failUnrepaired (hidle : s.maintenance = .idle) (hquiet : s.Quiet) :
      IndexStep env s .failUnrepaired { s with db := s.db.failUnrepairedDebt }
  | crash :
      IndexStep env s .crash
        { s with
          opened := false
          gate := none
          commits := fun _ => none
          maintenance := .idle }
  | reopen (hclosed : s.opened = false) (hquiet : s.Quiet) (hidle : s.maintenance = .idle) :
      IndexStep env s .reopen
        { s with
          db := s.db.failUnrepairedDebt
          opened := true
          debtNext := 1 }

/-- A store at rest, without records of a build. -/
structure AtRest (s : IndexState) : Prop where
  gate : s.gate = none
  quiet : s.Quiet
  idle : s.maintenance = .idle
  build : s.db.build = none
  cleanup : s.db.cleanup = none

/-- The runs of a store that starts at rest with a database that `start` describes. -/
def indexSystem (env : IndexEnv) (start : IndexDb → Prop) : System IndexState IndexAction where
  init s := AtRest s ∧ start s.db
  step := IndexStep env

end Craqle
