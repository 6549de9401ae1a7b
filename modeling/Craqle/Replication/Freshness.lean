import Craqle.Lib.Transition
import Craqle.Replication.Commit
import Craqle.Replication.Repair

/-! # Fresh dots

A commit without sync takes its counter from the log head of its actor. What other replicas
skip is decided by clocks, and a clock also grows by merged batches and installed snapshots.
This module runs all operations on a graph, in any order, and relates the two.

The relation (`OwnBounded`) holds in every run in which no batch, snapshot or repair brings in
a dot of the node's own actor past its log head. Nothing in the source checks that: a node
whose own dots come back to it after its log was lost, or under an actor it shares, reuses a
counter that its clock already covers.
-/

namespace Craqle

open VectorClock GraphState
open Std (ExtTreeMap)
open Transition (System Reachable anyStep)

structure NodeEnv (Bytes : Type) where
  ox : Oxrdf
  admits : GraphState → List MaterializedQuadChange → Bool
  archive : Archive Bytes
  own : ActorId
  graph : GraphId

inductive GraphOp (Bytes : Type) where
  | commit (hints : Bool) (changes : List MaterializedQuadChange)
  | merge (b : Batch)
  | install (snapshot : GraphReplicaSnapshot)
  | replace (backups : ExtTreeMap Digest Bytes compare) (snapshot : GraphReplicaSnapshot)
      (audit : RepairAudit)
  | delete (tombstone : GraphTombstone)

variable {Bytes : Type}

/-- The graph after an operation. A commit or a replacement that fails writes nothing. -/
def GraphOp.run (env : NodeEnv Bytes) (s : GraphState) : GraphOp Bytes → GraphState
  | .commit hints changes =>
    match commitLocal env.ox env.admits env.own env.graph hints s changes with
    | .ok (s', _) => s'
    | .error _ => s
  | .merge b => (mergeBatch env.ox s b).1
  | .install snapshot => (installWithReceipt env.ox s snapshot).1
  | .replace backups snapshot audit =>
    match replaceSnapshot env.archive backups s snapshot audit with
    | .ok s' => s'
    | .error _ => s
  | .delete tombstone => s.deleteGraphInner tombstone

/-- The graph in a node's store, from before its first operation. -/
def graphSystem (env : NodeEnv Bytes) : System GraphState (GraphOp Bytes) where
  init s := s = GraphState.unknown
  step s op s' := s' = op.run env s

/-- The last counter an actor used in the graph's log. -/
def GraphState.logHead (s : GraphState) (actor : ActorId) : Nat := s.logHeads[actor]?.getD 0

/-- A clock has no dot of the actor past a counter. -/
def VectorClock.BoundedAt (c : VectorClock) (actor : ActorId) (n : Nat) : Prop :=
  ∀ m, c.contains ⟨actor, m⟩ = true → m ≤ n

/-- The operation brings in no dot of the node's own actor past its log head. -/
def GraphOp.KeepsOwn (env : NodeEnv Bytes) (s : GraphState) : GraphOp Bytes → Prop
  | .merge b => b.actor = env.own → b.counter ≤ s.logHead env.own
  | .install snapshot => snapshot.clock.BoundedAt env.own (s.logHead env.own)
  | .replace _ snapshot _ => snapshot.clock.BoundedAt env.own (s.logHead env.own)
  | .commit _ _ => True
  | .delete _ => True

/-- The invariant: the graph's clock has no own dot past the log head. -/
def OwnBounded (own : ActorId) (s : GraphState) : Prop := s.clock.BoundedAt own (s.logHead own)

/-! ## One step -/

variable {env : NodeEnv Bytes} {s s' : GraphState}

theorem ownBounded_of_contains {own : ActorId} (h : OwnBounded own s)
    (hheads : s'.logHeads = s.logHeads)
    (hclock : ∀ m, s'.clock.contains ⟨own, m⟩ = true →
      s.clock.contains ⟨own, m⟩ = true ∨ m ≤ s.logHead own) : OwnBounded own s' := by
  intro m hm
  show m ≤ s'.logHeads[own]?.getD 0
  rw [hheads]
  rcases hclock m hm with hs | hle
  · exact h m hs
  · exact hle

theorem ownBounded_commit {hints : Bool} {changes : List MaterializedQuadChange} {b : Batch}
    (h : OwnBounded env.own s)
    (hcommit : commitLocal env.ox env.admits env.own env.graph hints s changes = .ok (s', b)) :
    OwnBounded env.own s' := by
  obtain ⟨_, ⟨_, _, rfl, _⟩ | ⟨_, _, counter, quads, hcounter, _, rfl, _⟩⟩ :=
    commitLocal_cases hcommit
  · exact h
  · intro m hm
    have hhead : counter = s.logHead env.own + 1 := nextCounter_eq hcounter
    show m ≤ (s.logHeads.insert env.own counter)[env.own]?.getD 0
    rw [Ordered.getElem?_insert, if_pos rfl, Option.getD_some]
    rcases (contains_advance _ _ _ _).mp hm with hold | ⟨_, hle⟩
    · have := h m hold
      omega
    · exact hle

theorem ownBounded_merge {b : Batch} (h : OwnBounded env.own s)
    (hb : b.actor = env.own → b.counter ≤ s.logHead env.own) :
    OwnBounded env.own (mergeBatch env.ox s b).1 := by
  rcases mergeBatch_cases env.ox s b with ⟨present, e, heq⟩ | ⟨present, heq, _⟩ |
    ⟨_, _, _, _, quads, _, heq⟩
  · rw [heq]
    exact h
  · rw [heq]
    exact h
  · rw [heq]
    refine ownBounded_of_contains h rfl fun m hm => ?_
    rcases (contains_advance _ _ _ _).mp hm with hold | ⟨hactor, hle⟩
    · exact Or.inl hold
    · exact Or.inr (le_trans hle (hb hactor.symm))

theorem joinSnapshot_clock (ox : Oxrdf) (s : GraphState) (snapshot : GraphReplicaSnapshot) :
    (joinSnapshot ox s snapshot).1.logHeads = s.logHeads ∧
      ∀ d, (joinSnapshot ox s snapshot).1.clock.contains d = true →
        s.clock.contains d = true ∨ snapshot.clock.contains d = true := by
  unfold joinSnapshot
  split
  · exact ⟨rfl, fun d hd => Or.inl hd⟩
  rename_i there hthere
  simp only
  split
  · exact ⟨rfl, fun d hd => Or.inl hd⟩
  · split
    · refine ⟨rfl, fun d hd => ?_⟩
      rw [← (canonicalSnapshot_frame hthere).2]
      exact (contains_merge _ _ _).mp hd
    · exact ⟨rfl, fun d hd => Or.inl hd⟩

theorem installWithReceipt_clock (ox : Oxrdf) (s : GraphState) (snapshot : GraphReplicaSnapshot) :
    (installWithReceipt ox s snapshot).1.logHeads = s.logHeads ∧
      ∀ d, (installWithReceipt ox s snapshot).1.clock.contains d = true →
        s.clock.contains d = true ∨ snapshot.clock.contains d = true := by
  have hstart : (if s.present then s else s.createGraph).logHeads = s.logHeads ∧
      (if s.present then s else s.createGraph).clock = s.clock := by
    split
    · exact ⟨rfl, rfl⟩
    · exact ⟨rfl, rfl⟩
  obtain ⟨hheads, hclock⟩ := joinSnapshot_clock ox (if s.present then s else s.createGraph) snapshot
  rw [hstart.1, hstart.2] at *
  unfold installWithReceipt
  split
  · exact ⟨rfl, fun d hd => Or.inl hd⟩
  split
  · exact ⟨rfl, fun d hd => Or.inl hd⟩
  split
  · next heq =>
    rw [heq] at hheads hclock
    exact ⟨hheads, hclock⟩
  · next heq =>
    rw [heq] at hheads hclock
    exact ⟨hheads, hclock⟩

/-- **One step keeps the bound**, if it brings in no own dot past the log head. -/
theorem ownBounded_step {op : GraphOp Bytes} (h : OwnBounded env.own s)
    (hkeep : op.KeepsOwn env s) : OwnBounded env.own (op.run env s) := by
  cases op with
  | commit hints changes =>
    simp only [GraphOp.run]
    split
    · next hcommit => exact ownBounded_commit h hcommit
    · exact h
  | merge b => exact ownBounded_merge h hkeep
  | install snapshot =>
    obtain ⟨hheads, hclock⟩ := installWithReceipt_clock env.ox s snapshot
    exact ownBounded_of_contains h hheads fun m hm => (hclock _ hm).imp_right (hkeep m)
  | replace backups snapshot audit =>
    simp only [GraphOp.run]
    split
    · next hreplace =>
      obtain ⟨_, rfl, _⟩ := replaceSnapshot_eq_ok _ hreplace
      exact ownBounded_of_contains h rfl fun m hm => Or.inr (hkeep m hm)
    · exact h
  | delete tombstone =>
    intro m hm
    have hempty : new.contains ⟨env.own, m⟩ = true := hm
    simp at hempty

/-! ## Whole runs -/

/-- **Dots are fresh** in every run in which no batch, snapshot or repair brings in an own dot
past the log head: the clock does not contain the dot a commit takes, and so does no replica
that knows no dot of this node past its log head. -/
theorem commit_dot_fresh (h : Reachable (graphSystem env) (fun s op => op.KeepsOwn env s) s) :
    (∀ n, s.nextCounter env.own = .ok n → s.clock.contains ⟨env.own, n⟩ = false) ∧
      ∀ hints changes s' b, ¬ (changes = [] ∧ hints = false) →
        commitLocal env.ox env.admits env.own env.graph hints s changes = .ok (s', b) →
        ∀ r : GraphState, r.clock.BoundedAt env.own (s.logHead env.own) →
          r.clock.contains b.identity = false := by
  have hbounded : OwnBounded env.own s := by
    refine h.invariant (fun s hs => ?_) fun s op s' hs hkeep hstep => ?_
    · intro m hm
      rw [hs] at hm
      simp [unknown] at hm
    · rw [hstep]
      exact ownBounded_step hs hkeep
  have hfresh : ∀ n, s.nextCounter env.own = .ok n → s.clock.contains ⟨env.own, n⟩ = false := by
    intro n hn
    have hhead : n = s.logHead env.own + 1 := nextCounter_eq hn
    by_contra hc
    have := hbounded n (by simpa using hc)
    omega
  refine ⟨hfresh, fun hints changes s' b hevent hcommit r hr => ?_⟩
  obtain ⟨_, ⟨hnil, hhints, _⟩ | ⟨_, _, counter, _, hcounter, _, _, rfl⟩⟩ :=
    commitLocal_cases hcommit
  · exact absurd ⟨hnil, hhints⟩ hevent
  · by_contra hc
    have hhead : counter = s.logHead env.own + 1 := nextCounter_eq hcounter
    have := hr counter (by simpa [Batch.identity] using hc)
    omega

/-! ## Concrete runs -/

/-- Node of actor 2. Snapshots are archived as they are, under their number of rows. -/
def sampleEnv : NodeEnv GraphReplicaSnapshot where
  ox := ntriplesOxrdf
  admits _ _ := true
  archive := ⟨id, some, fun snapshot => BitVec.ofNat 256 snapshot.quads.length⟩
  own := 2
  graph := sampleGraph

def sampleInsert : GraphOp GraphReplicaSnapshot := .commit false [.insert sampleGraph sampleQuad]

/-- A peer that has seen actor 2's first event and put its own dot in place of it. -/
def peerSnapshot : GraphReplicaSnapshot :=
  ⟨sampleGraph, (VectorClock.new.advance 1 1).advance 2 1, [⟨sampleQuad, [⟨1, 1⟩]⟩]⟩

def joinedState : GraphState :=
  (GraphOp.install peerSnapshot).run sampleEnv (sampleInsert.run sampleEnv GraphState.unknown)

theorem commit_dot_fresh_install :
    joinedState.nextCounter 2 = .ok 2 ∧ joinedState.clock.contains ⟨2, 2⟩ = false := by
  have hcommit : Reachable (graphSystem sampleEnv) (fun s op => op.KeepsOwn sampleEnv s)
      (sampleInsert.run sampleEnv unknown) :=
    .step sampleInsert (.init rfl) trivial rfl
  have hinstall : Reachable (graphSystem sampleEnv) (fun s op => op.KeepsOwn sampleEnv s)
      joinedState := by
    refine .step (.install peerSnapshot) hcommit ?_ rfl
    have hhead : (sampleInsert.run sampleEnv unknown).logHead 2 = 1 := by
      decide +kernel
    intro m hm
    show m ≤ (sampleInsert.run sampleEnv unknown).logHead 2
    rw [hhead]
    rcases (contains_advance _ _ _ _).mp hm with hold | ⟨_, hle⟩
    · rcases (contains_advance _ _ _ _).mp hold with hnew | ⟨hactor, _⟩
      · simp at hnew
      · have hother : (2 : ActorId) = 1 := hactor
        exact absurd hother (by decide)
    · exact hle
  have hnext : joinedState.nextCounter 2 = .ok 2 := by decide +kernel
  exact ⟨hnext, (commit_dot_fresh hinstall).1 2 hnext⟩

/-- A peer's snapshot from a time when actor 2's log had three events. -/
def lostLogSnapshot : GraphReplicaSnapshot := ⟨sampleGraph, VectorClock.new.advance 2 3, []⟩

/-- A node that lost its log and installs a snapshot with its own old dots takes counter 1
again, which its clock covers. The batch of the commit is refused by a replica in the node's
own state. -/
theorem commit_dot_reused :
    ∃ s s' b, Reachable (graphSystem sampleEnv) anyStep s ∧
      s.nextCounter 2 = .ok 1 ∧ s.clock.contains ⟨2, 1⟩ = true ∧
      commitLocal ntriplesOxrdf (fun _ _ => true) 2 sampleGraph false s
        [.insert sampleGraph sampleQuad] = .ok (s', b) ∧
      isOk (mergeBatch ntriplesOxrdf s b).2 = false := by
  refine ⟨(GraphOp.install lostLogSnapshot).run sampleEnv unknown, _, _,
    .step (.install lostLogSnapshot) (.init rfl) trivial rfl, ?_, ?_, rfl, ?_⟩
  all_goals decide +kernel

/-! ## Deleted graphs -/

/-- All that is left of the record, the quads and the clock of a deleted graph. The store also keeps
the policy of that time, under a key of its own. -/
def GraphState.deleted (t : GraphTombstone) : GraphState := { unknown with tombstone := some t }

/-- A deletion keeps the later one of two tombstones. -/
theorem deleteGraphInner_eq (s : GraphState) (t : GraphTombstone) :
    ∃ t' : GraphTombstone, s.deleteGraphInner t = deleted t' ∧ t.deleteEvent ≤ t'.deleteEvent ∧
      ∀ old, s.tombstone = some old → old.deleteEvent ≤ t'.deleteEvent := by
  unfold deleteGraphInner
  cases s.tombstone with
  | none => exact ⟨t, rfl, BitVec.le_refl _, nofun⟩
  | some old =>
    dsimp only
    split
    · next hle => exact ⟨old, rfl, hle, by simp⟩
    · next hlt => exact ⟨t, rfl, BitVec.le_refl _, by simp; bv_omega⟩

/-- Every operation leaves a deleted graph deleted. -/
theorem run_deleted (t : GraphTombstone) (op : GraphOp Bytes) : ∃ t' : GraphTombstone,
    op.run env (deleted t) = deleted t' ∧ t.deleteEvent ≤ t'.deleteEvent := by
  cases op with
  | commit hints changes | replace backups snapshot audit => exact ⟨t, rfl, BitVec.le_refl _⟩
  | merge b =>
    refine ⟨t, ?_, BitVec.le_refl _⟩
    simp only [GraphOp.run, mergeBatch, applyIroklePlan]
    split
    · rfl
    · split <;> rfl
  | install snapshot =>
    refine ⟨t, ?_, BitVec.le_refl _⟩
    simp only [GraphOp.run, installWithReceipt]
    split <;> rfl
  | delete d =>
    obtain ⟨t', heq, -, ht⟩ := deleteGraphInner_eq (deleted t) d
    exact ⟨t', heq, ht t rfl⟩

/-- **A deleted graph stays deleted**: no order of commits, merges, snapshots, repairs and further
deletions brings back its record, a quad or a dot, and its tombstone gives way to later ones only. -/
theorem deleted_stays_deleted (s : GraphState) (t : GraphTombstone) (ops : List (GraphOp Bytes)) :
    ∃ t' : GraphTombstone, ops.foldl (GraphOp.run env) (s.deleteGraphInner t) = deleted t' ∧
      t.deleteEvent ≤ t'.deleteEvent := by
  obtain ⟨t₀, heq, hle, -⟩ := deleteGraphInner_eq s t
  refine List.foldlRecOn (motive := fun s : GraphState => ∃ t' : GraphTombstone,
    s = deleted t' ∧ t.deleteEvent ≤ t'.deleteEvent) ops _ ⟨t₀, heq, hle⟩ ?_
  rintro _ ⟨t₁, rfl, hle₁⟩ op _
  obtain ⟨t₂, heq₂, hle₂⟩ := @run_deleted _ env t₁ op
  exact ⟨t₂, heq₂, BitVec.le_trans hle₁ hle₂⟩

end Craqle
