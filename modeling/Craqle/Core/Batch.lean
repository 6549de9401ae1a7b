import Craqle.Core.Clock
import Craqle.Core.Term

/-! # Batches, changes and snapshots

The units of replication. A batch is a list of operations on one graph made by one event:
adds carry a dot, removes carry the clock of the dots they saw. `Batch.fromChanges` builds
one from a list of changes, with one dot for all inserts and the base clock as what every
delete has seen. Wall-clock timestamps are not modelled: nothing reads them.
-/

namespace Craqle

open Std (TransOrd TransCmp LawfulEqOrd)

/-- A named-graph IRI identifying one crate. -/
structure GraphId where
  iri : Text
  deriving DecidableEq

/-- Stable identifier for a graph lifecycle event. -/
abbrev EventId := BitVec 256

abbrev TopicId := BitVec 256

abbrev OpId := BitVec 256

instance : LawfulBEq OpId := inferInstance

def lowerHex (n : Nat) : Char := if n < 10 then Char.ofNat (48 + n) else Char.ofNat (87 + n)

/-- Thirty-two bytes in hexadecimal, two digits a byte. -/
def hexText (id : BitVec 256) : Text :=
  (List.range 32).flatMap fun i =>
    let byte := id.toNat / 256 ^ (31 - i) % 256
    [lowerHex (byte / 16), lowerHex (byte % 16)]

/-- The three terms of a quad inside its graph. -/
structure Triple where
  subject : EncodedTerm
  predicate : EncodedTerm
  object : EncodedTerm
  deriving DecidableEq

/-- Rows are sorted by subject, predicate, object. -/
instance : Ord Triple where
  compare := compareLex (compareOn Triple.subject)
    (compareLex (compareOn Triple.predicate) (compareOn Triple.object))

instance : TransOrd Triple :=
  inferInstanceAs (TransCmp (compareLex (compareOn Triple.subject)
    (compareLex (compareOn Triple.predicate) (compareOn Triple.object))))

instance : LawfulEqOrd Triple where
  eq_of_compare {a b} h := by
    change (compare a.subject b.subject).then
      ((compare a.predicate b.predicate).then (compare a.object b.object)) = .eq at h
    rw [Ordering.then_eq_eq, Ordering.then_eq_eq, Std.compare_eq_iff_eq, Std.compare_eq_iff_eq,
      Std.compare_eq_iff_eq] at h
    cases a
    cases b
    simp_all

def Triple.terms (q : Triple) : List EncodedTerm := [q.subject, q.predicate, q.object]

/-! ## Batches -/

inductive QuadOp where
  | add (quad : Triple) (dot : Dot)
  | remove (quad : Triple) (witnessed : VectorClock)
  deriving DecidableEq

def QuadOp.quad : QuadOp → Triple
  | .add quad _ => quad
  | .remove quad _ => quad

/-- The unit of replication: a committed set of operations on a single graph. -/
structure Batch where
  graph : GraphId
  actor : ActorId
  counter : Nat
  baseClock : VectorClock
  ops : List QuadOp
  deriving DecidableEq

/-- The batch's own event. -/
def Batch.identity (b : Batch) : Dot := ⟨b.actor, b.counter⟩

inductive MaterializedQuadChange where
  | insert (graph : GraphId) (quad : Triple)
  | delete (graph : GraphId) (quad : Triple)
  deriving DecidableEq

namespace MaterializedQuadChange

def graph : MaterializedQuadChange → GraphId
  | .insert graph _ => graph
  | .delete graph _ => graph

def quad : MaterializedQuadChange → Triple
  | .insert _ quad => quad
  | .delete _ quad => quad

/-- The operation a change becomes in a batch with the given event and base clock. -/
def toOp (dot : Dot) (base : VectorClock) : MaterializedQuadChange → QuadOp
  | .insert _ quad => .add quad dot
  | .delete _ quad => .remove quad base

end MaterializedQuadChange

/-- A change carried a graph other than the batch's own graph. -/
structure CrossGraphChange where
  expected : GraphId
  actual : GraphId
  deriving DecidableEq

def ensureChangeGraph (expected actual : GraphId) : Except CrossGraphChange Unit :=
  if expected = actual then .ok () else .error ⟨expected, actual⟩

/-- Build an ordered replication batch whose inserts share one dot and whose deletes witness
the base. -/
def Batch.fromChanges (graph : GraphId) (actor : ActorId) (counter : Nat) (base : VectorClock)
    (changes : List MaterializedQuadChange) : Except CrossGraphChange Batch :=
  match changes.foldlM (fun ops change =>
      (ensureChangeGraph graph change.graph).map fun _ =>
        ops ++ [change.toOp ⟨actor, counter⟩ base]) [] with
  | .ok ops => .ok ⟨graph, actor, counter, base, ops⟩
  | .error e => .error e

theorem foldlM_toOp_eq_ok_iff {graph : GraphId} {dot : Dot} {base : VectorClock}
    {changes : List MaterializedQuadChange} {acc ops : List QuadOp} :
    changes.foldlM (fun ops change =>
        (ensureChangeGraph graph change.graph).map fun _ => ops ++ [change.toOp dot base]) acc
        = .ok ops ↔
      (∀ change ∈ changes, change.graph = graph) ∧ ops = acc ++ changes.map (·.toOp dot base) := by
  rw [List.map_eq_flatMap]
  refine Fallible.foldlM_collect fun change _ acc out => ?_
  rw [Fallible.map_eq_ok]
  by_cases hg : graph = change.graph
  · simp [ensureChangeGraph, hg, eq_comm]
  · simp [ensureChangeGraph, hg, Ne.symm hg]

/-- **What `fromChanges` builds**: one operation a change, in order, when every change is of
the batch's graph. -/
theorem Batch.fromChanges_eq_ok_iff {graph : GraphId} {actor : ActorId} {counter : Nat}
    {base : VectorClock} {changes : List MaterializedQuadChange} {b : Batch} :
    Batch.fromChanges graph actor counter base changes = .ok b ↔
      (∀ change ∈ changes, change.graph = graph) ∧
        b = ⟨graph, actor, counter, base, changes.map (·.toOp ⟨actor, counter⟩ base)⟩ := by
  unfold Batch.fromChanges
  constructor
  · intro h
    split at h
    · next ops hops =>
      rw [foldlM_toOp_eq_ok_iff, List.nil_append] at hops
      obtain ⟨hgraph, rfl⟩ := hops
      exact ⟨hgraph, (Except.ok.inj h).symm⟩
    · simp at h
  · rintro ⟨hgraph, rfl⟩
    rw [foldlM_toOp_eq_ok_iff.mpr ⟨hgraph, rfl⟩]
    rfl

/-! ## Snapshots -/

/-- A live quad and its dots, as a replica dumps or receives it. -/
structure SnapshotQuadState where
  quad : Triple
  dots : List Dot
  deriving DecidableEq

/-- A dump of one graph's quad state. -/
structure GraphReplicaSnapshot where
  graph : GraphId
  clock : VectorClock
  quads : List SnapshotQuadState
  deriving DecidableEq

/-- Permanent metadata retained after a graph is deleted. -/
structure GraphTombstone where
  graph : GraphId
  deleteEvent : EventId
  deleteActor : ActorId
  deleteClock : VectorClock
  deriving DecidableEq

/-! ## A small graph

Values that the concrete runs of later modules share. -/

def sampleGraph : GraphId := ⟨"urn:g".toList⟩

def sampleQuad : Triple := ⟨⟨"<urn:s>".toList⟩, ⟨"<urn:p>".toList⟩, ⟨"\"v\"".toList⟩⟩

def insertBatch : Batch := ⟨sampleGraph, 1, 1, VectorClock.new, [.add sampleQuad ⟨1, 1⟩]⟩

/-- Actor 2 has seen the add, and removes the quad. -/
def deleteBatch : Batch :=
  ⟨sampleGraph, 2, 1, VectorClock.new.advance 1 1, [.remove sampleQuad (VectorClock.new.advance 1 1)]⟩

end Craqle
