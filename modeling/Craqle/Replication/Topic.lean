import Craqle.Replication.Commit

/-! # Reconciling topics

A node applies the records of its Irokle topics in order. A record that is wrong in itself is
quarantined: it is stored as rejected and the topic's cursor moves past it. Any other failure
stalls the pass. A rejected record can be retried later, by hand.

The node's state here is the part these functions read and write: the graphs, the topic each
graph record names, the graph each topic is bound to, the policy tags, the rejections and the
cursors. Policies, receipts, commit information and payload digests are left out. Records are
what Irokle hands over: an event, a payload that does not decode, or a control record.
-/

namespace Craqle

/-- Total-order tag for the replicated graph-policy register. -/
structure PolicyTag where
  counter : Nat
  actor : ActorId
  deriving DecidableEq

namespace PolicyTag

def genesis : PolicyTag := ⟨0, 0⟩

def le (a b : PolicyTag) : Bool :=
  a.counter < b.counter || (a.counter = b.counter && a.actor ≤ b.actor)

end PolicyTag

/-- What a record asks for. The four kinds of quad mutation differ in hints and commit
information only. -/
inductive GraphEvent where
  | mutation (graph : GraphId) (changes : List MaterializedQuadChange)
  | policy (graph : GraphId) (tag : PolicyTag)
  | graphDeleted (tombstone : GraphTombstone)
  deriving DecidableEq

def GraphEvent.graph : GraphEvent → GraphId
  | .mutation graph _ => graph
  | .policy graph _ => graph
  | .graphDeleted tombstone => tombstone.graph

structure EventRecord where
  opId : OpId
  opMeta : OpMeta
  event : GraphEvent
  deriving DecidableEq

inductive CraqleErrorKind where
  | invalidInput
  | unsupported
  | unauthorized
  | conflict
  | stalePreparedState
  | queryLimit
  | validationLimit
  | storage
  | corruptDerivedData
  | corruptAuthoritativeData
  | dependencyUnavailable
  | cancelled
  | resourceLimit
  deriving DecidableEq

inductive TopicRecord where
  | event (record : EventRecord)
  | rejected (opId : OpId) (opMeta : OpMeta) (kind : CraqleErrorKind) (reason : Text)
  | control (opMeta : OpMeta)
  deriving DecidableEq

def TopicRecord.opMeta : TopicRecord → OpMeta
  | .event record => record.opMeta
  | .rejected _ m _ _ => m
  | .control m => m

structure RejectedReplicationRecord where
  topic : TopicId
  recordId : OpId
  actor : ActorId
  sequence : Nat
  graph : Option GraphId
  errorKind : CraqleErrorKind
  reason : Text
  seenCount : Nat
  acknowledged : Bool
  deriving DecidableEq

/-- Why a record is not applied. -/
inductive RecordError where
  | outsideBinding
  | deleted (tombstone : GraphTombstone)
  | policyActor
  | policyUnauthorized
  | malformed (error : UpdateError)
  | topicConflict (existing : TopicId)
  | merge (error : MergeError)
  | undecodable (kind : CraqleErrorKind) (reason : Text)
  | notAuthorized
  | unavailable
  | notAnEvent
  deriving DecidableEq

namespace RecordError

/-- Whether this rejects a record for what it contains; everything else is retryable. -/
def rejectsRecord : RecordError → Bool
  | .outsideBinding => true
  | .deleted _ => true
  | .policyActor => true
  | .policyUnauthorized => true
  | .malformed _ => true
  | .undecodable _ _ => true
  | .unavailable => true
  | .notAnEvent => true
  | .topicConflict _ => false
  | .merge _ => false
  | .notAuthorized => false

def kind : RecordError → CraqleErrorKind
  | .outsideBinding => .corruptAuthoritativeData
  | .deleted _ => .conflict
  | .policyActor => .corruptAuthoritativeData
  | .policyUnauthorized => .unauthorized
  | .malformed _ => .invalidInput
  | .undecodable kind _ => kind
  | .unavailable => .invalidInput
  | .notAnEvent => .invalidInput
  | .topicConflict _ => .conflict
  | .merge _ => .conflict
  | .notAuthorized => .unauthorized

def reason : RecordError → Text
  | .outsideBinding => "record targets a graph outside its topic binding".toList
  | .deleted tombstone =>
    "graph ".toList ++ tombstone.graph.iri ++ " was permanently deleted by event ".toList ++
      hexText tombstone.deleteEvent
  | .policyActor => "policy tag actor does not match the signed record actor".toList
  | .policyUnauthorized => "remote actor is not authorized to change graph policy".toList
  | .malformed _ => "malformed graph event".toList
  | .undecodable _ reason => reason
  | _ => "replication record rejected".toList

end RecordError

/-! ## The node -/

/-- A node's store as far as topics go. A policy is told by its tag. -/
structure TopicNode where
  graphs : GraphId → GraphState
  topicOf : GraphId → Option TopicId
  /-- The policy in the graph's record. -/
  policyTag : GraphId → PolicyTag
  /-- The policy that a deleted graph had, which later lookups are authorized by. -/
  deletedPolicy : GraphId → Option PolicyTag
  binding : TopicId → Option GraphId
  rejections : TopicId → OpId → Option RejectedReplicationRecord
  cursors : TopicId → VectorClock

/-- What the functions below ask of the rest of the node. -/
structure TopicEnv where
  ox : Oxrdf
  /-- The deterministic topic of a graph. -/
  graphTopicId : GraphId → TopicId
  /-- The node's own actor in a topic. -/
  localActor : TopicId → ActorId
  mayApplyPolicy : GraphId → PolicyTag → Bool
  mayRetry : RejectedReplicationRecord → Bool

namespace TopicNode

def setGraph (n : TopicNode) (graph : GraphId) (s : GraphState) : TopicNode :=
  { n with graphs := Function.update n.graphs graph s }

@[simp] theorem graphs_setGraph_self (n : TopicNode) (graph : GraphId) (s : GraphState) :
    (n.setGraph graph s).graphs graph = s :=
  Function.update_self ..

theorem graphs_setGraph_of_ne (n : TopicNode) {graph other : GraphId} (h : other ≠ graph)
    (s : GraphState) : (n.setGraph graph s).graphs other = n.graphs other :=
  Function.update_of_ne h ..

/-- Name the topic in the graph's record, and bind the topic to the graph, in place of what it
was bound to. -/
def bindTopic (n : TopicNode) (graph : GraphId) (topic : TopicId) : TopicNode :=
  { n.setGraph graph (n.graphs graph).createGraph with
    topicOf := Function.update n.topicOf graph (some topic)
    binding := Function.update n.binding topic (some graph) }

def bindGraphTopic (n : TopicNode) (graph : GraphId) (topic : TopicId) :
    Except RecordError TopicNode :=
  match n.topicOf graph with
  | some existing => if existing ≠ topic then .error (.topicConflict existing) else .ok n
  | none => .ok (n.bindTopic graph topic)

/-- A local write makes sure of its graph's topic. -/
def ensureTopic (env : TopicEnv) (n : TopicNode) (graph : GraphId) : TopicNode :=
  match n.topicOf graph with
  | some _ => n
  | none => n.bindTopic graph (env.graphTopicId graph)

/-- Store a rejection; one that is stored already is counted. -/
def recordReplicationRejection (n : TopicNode) (r : RejectedReplicationRecord) : TopicNode :=
  let stored :=
    match n.rejections r.topic r.recordId with
    | some existing =>
      { r with seenCount := existing.seenCount + 1, acknowledged := existing.acknowledged }
    | none => { r with seenCount := 1 }
  { n with
    rejections := Function.update n.rejections r.topic
      (Function.update (n.rejections r.topic) r.recordId (some stored)) }

def deleteReplicationRejection (n : TopicNode) (topic : TopicId) (id : OpId) : TopicNode :=
  { n with
    rejections := Function.update n.rejections topic
      (Function.update (n.rejections topic) id none) }

def setCursor (n : TopicNode) (topic : TopicId) (clock : VectorClock) : TopicNode :=
  { n with cursors := Function.update n.cursors topic clock }

/-- Remove a graph for good: its record goes, with the topic and the policy it names. The policy is
stored once more, under `deleted_policy_key`. -/
def deleteGraph (n : TopicNode) (tombstone : GraphTombstone) : TopicNode :=
  { n.setGraph tombstone.graph ((n.graphs tombstone.graph).deleteGraphInner tombstone) with
    topicOf := Function.update n.topicOf tombstone.graph none
    policyTag := Function.update n.policyTag tombstone.graph PolicyTag.genesis
    deletedPolicy := Function.update n.deletedPolicy tombstone.graph
      (some (n.policyTag tombstone.graph)) }

/-- Store a newer policy in the graph's record. -/
def setPolicy (n : TopicNode) (graph : GraphId) (tag : PolicyTag) : TopicNode :=
  { n.setGraph graph (n.graphs graph).createGraph with
    policyTag := Function.update n.policyTag graph tag }

end TopicNode

/-! ## Applying a record -/

/-- Apply one record under the write guard of its graph; the result says whether it changed
anything. -/
def applyRecordLocked (env : TopicEnv) (n : TopicNode) (topic : TopicId) (record : EventRecord) :
    TopicNode × Except RecordError Bool :=
  match record.event with
  | .graphDeleted tombstone =>
    let s := n.graphs tombstone.graph
    if s.tombstone.isSome && !s.present then (n, .ok false) else (n.deleteGraph tombstone, .ok true)
  | .policy graph tag =>
    match (n.graphs graph).tombstone with
    | some tombstone => (n, .error (.deleted tombstone))
    | none =>
      if tag.actor ≠ record.opMeta.actor then (n, .error .policyActor)
      else if record.opMeta.actor ≠ env.localActor topic && !env.mayApplyPolicy graph tag then
        (n, .error .policyUnauthorized)
      else if tag.le (n.policyTag graph) then (n, .ok false)
      else (n.setPolicy graph tag, .ok true)
  | .mutation graph changes =>
    match (n.graphs graph).tombstone with
    | some tombstone => (n, .error (.deleted tombstone))
    | none =>
      match batchFromRecord env.ox graph record.opMeta changes with
      | .error e => (n, .error (.malformed e))
      | .ok b =>
        match applyIroklePlan env.ox (n.graphs graph) b with
        | (s, .ok result) => (n.setGraph graph s, .ok result.applied)
        | (s, .error e) => (n.setGraph graph s, .error (.merge e))

def applyReconciledRecord (env : TopicEnv) (n : TopicNode) (topic : TopicId)
    (record : EventRecord) : TopicNode × Except RecordError Bool :=
  match n.binding topic with
  | some bound =>
    if bound ≠ record.event.graph then (n, .error .outsideBinding)
    else applyRecordLocked env n topic record
  | none =>
    match n.bindGraphTopic record.event.graph topic with
    | .error e => (n, .error e)
    | .ok n' => applyRecordLocked env n' topic record

def rejectedReplicationRecord (topic : TopicId) (record : EventRecord) (error : RecordError) :
    RejectedReplicationRecord where
  topic := topic
  recordId := record.opId
  actor := record.opMeta.actor
  sequence := record.opMeta.actorSeq
  graph := some record.event.graph
  errorKind := error.kind
  reason := error.reason
  seenCount := 0
  acknowledged := false

def undecodedRecord (topic : TopicId) (id : OpId) (opMeta : OpMeta) (graph : Option GraphId)
    (kind : CraqleErrorKind) (reason : Text) : RejectedReplicationRecord where
  topic := topic
  recordId := id
  actor := opMeta.actor
  sequence := opMeta.actorSeq
  graph := graph
  errorKind := kind
  reason := reason
  seenCount := 0
  acknowledged := false

/-! ## A pass over a topic -/

/-- A pass under way: the node, the cursor so far, the records that changed something (the last
one first), and what the pass stalled on. -/
structure TopicPass where
  node : TopicNode
  cursor : VectorClock
  applied : List EventRecord
  stalled : Option RecordError

def reconcileRecord (env : TopicEnv) (topic : TopicId) (pass : TopicPass) (record : TopicRecord) :
    TopicPass :=
  if pass.stalled.isSome then pass
  else
    let cursor := pass.cursor.advance record.opMeta.actor record.opMeta.actorSeq
    match record with
    | .control _ => { pass with cursor := cursor }
    | .rejected id m kind reason =>
      let rejection := undecodedRecord topic id m (pass.node.binding topic) kind reason
      { pass with
        node := (pass.node.recordReplicationRejection rejection).setCursor topic cursor
        cursor := cursor }
    | .event record =>
      match applyReconciledRecord env pass.node topic record with
      | (n, .ok applied) =>
        { pass with
          node := n
          cursor := cursor
          applied := if applied then record :: pass.applied else pass.applied }
      | (n, .error e) =>
        if e.rejectsRecord then
          { pass with
            node := (n.recordReplicationRejection
              (rejectedReplicationRecord topic record e)).setCursor topic cursor
            cursor := cursor }
        else { pass with node := n, stalled := some e }

/-- Apply a page of a topic's outstanding records in order, up to the first failure a retry
could clear, and store the cursor. -/
def reconcileTopic (env : TopicEnv) (n : TopicNode) (topic : TopicId) (records : List TopicRecord) :
    TopicPass :=
  let pass := records.foldl (reconcileRecord env topic) ⟨n, n.cursors topic, [], none⟩
  { pass with node := pass.node.setCursor topic pass.cursor }

/-- Retry a rejected record, as the topic has it now. `ok true` is answered whenever the record
was accepted, also as one that the graph has seen. -/
def retryRejected (env : TopicEnv) (n : TopicNode) (topic : TopicId) (id : OpId)
    (answer : Option TopicRecord) : TopicNode × Except RecordError Bool :=
  match n.rejections topic id with
  | none => (n, .ok false)
  | some rejected =>
    if env.mayRetry rejected = false then (n, .error .notAuthorized)
    else
      match answer with
      | none => (n, .error .unavailable)
      | some (.control _) => (n, .error .notAnEvent)
      | some (.rejected id' m kind reason) =>
        (n.recordReplicationRejection (undecodedRecord topic id' m rejected.graph kind reason),
          .error (.undecodable kind reason))
      | some (.event record) =>
        match applyReconciledRecord env n topic record with
        | (n', .ok _) => (n'.deleteReplicationRejection topic id, .ok true)
        | (n', .error e) =>
          if e.rejectsRecord then
            (n'.recordReplicationRejection (rejectedReplicationRecord topic record e), .error e)
          else (n', .error e)

end Craqle
