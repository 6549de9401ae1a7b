import Craqle.Replication.Merge

/-! # Local writes

`commit_with_plan` has two paths. Without sync the node stages the changes itself: it takes
its next counter, and every delete witnesses the clock that already has the new dot. With
sync the node publishes the changes as an Irokle record and applies the batch that
`Batch::from_changes` makes of it, where a delete witnesses the record's observed clock.

Structural rules, SHACL enforcement and prepared fences decide whether a change list is
admitted and are one parameter (`admits`). What Irokle answers is `IrokleAnswers`.

Both paths are runs of `applyOps` (`stageChanges_eq`), with a dot and a witness clock that
differ.
-/

namespace Craqle

/-- Why a local write fails. -/
inductive UpdateError where
  | graphDeleted (tombstone : GraphTombstone)
  | refused
  | ownPending
  | sync (error : SyncError)
  | crossGraph (error : CrossGraphChange)
  | merge (error : MergeError)
  | panicked (panic : Panic)
  deriving DecidableEq

/-- The answer to a write that changes nothing: no event, counter zero. -/
def emptyBatch (graph : GraphId) (actor : ActorId) (s : GraphState) : Batch :=
  ⟨graph, actor, 0, s.clock, []⟩

/-! ## Without sync -/

/-- One change of a local commit: its effect on the rows, and the operation it becomes. -/
def stageChange (ox : Oxrdf) (dot : Dot) (witnessed : VectorClock) (acc : QuadTable × List QuadOp)
    (change : MaterializedQuadChange) : Except Panic (QuadTable × List QuadOp) :=
  (resolveQuad ox change.quad).map fun quad =>
    match change with
    | .insert _ terms => (acc.1.insertQuad quad dot, acc.2 ++ [.add terms dot])
    | .delete _ terms => (acc.1.removeQuad quad witnessed, acc.2 ++ [.remove terms witnessed])

/-- A local write without sync: the state after it, and the batch it returns. -/
def commitLocal (ox : Oxrdf) (admits : GraphState → List MaterializedQuadChange → Bool)
    (actor : ActorId) (graph : GraphId) (hints : Bool) (s : GraphState)
    (changes : List MaterializedQuadChange) : Except UpdateError (GraphState × Batch) :=
  match s.tombstone with
  | some tombstone => .error (.graphDeleted tombstone)
  | none =>
    if changes = [] ∧ hints = false then .ok (s, emptyBatch graph actor s)
    else if admits s changes = false then .error .refused
    else
      match s.nextCounter actor with
      | .error p => .error (.panicked p)
      | .ok counter =>
        -- the clock is advanced before the changes are staged, so deletes witness the new dot
        let clock := s.clock.advance actor counter
        match changes.foldlM (stageChange ox ⟨actor, counter⟩ clock) (s.quads, []) with
        | .error p => .error (.panicked p)
        | .ok (quads, ops) =>
          .ok ({ s with present := true, quads := quads, clock := clock,
                        logHeads := s.logHeads.insert actor counter },
            ⟨graph, actor, counter, s.clock, ops⟩)

/-! ## With sync -/

/-- The metadata Irokle dates a record with. -/
structure OpMeta where
  actor : ActorId
  actorSeq : Nat
  observedClock : VectorClock
  deriving DecidableEq

/-- What a topic knows: the node's own actor in it, and the records it has. -/
structure Frontier where
  localActor : ActorId
  clock : VectorClock
  deriving DecidableEq

/-- What Irokle answers while a write is published: the topic's frontier, the first own record
of it that is not applied yet, the published record, and then the first two again. -/
structure IrokleAnswers where
  frontier : Frontier
  unapplied : Option Nat
  record : OpMeta
  frontierAfter : Frontier
  unappliedAfter : Option Nat
  deriving DecidableEq

/-- A record is published under the node's own actor, with a sequence past all it has in the
topic, and does not observe itself. -/
structure IrokleAnswers.Documented (a : IrokleAnswers) : Prop where
  actor : a.record.actor = a.frontier.localActor
  seq : a.frontier.clock.entries[a.frontier.localActor]?.getD 0 < a.record.actorSeq
  observed : a.record.observedClock.contains ⟨a.record.actor, a.record.actorSeq⟩ = false

/-- Own records of the topic that are not applied yet. A graph clock ahead of the topic counts
as one, under sequence zero. -/
def ownPending (s : GraphState) (frontier : Frontier) (unapplied : Option Nat) : Option Nat :=
  if s.clock.entries[frontier.localActor]?.getD 0 >
      frontier.clock.entries[frontier.localActor]?.getD 0 then some 0
  else unapplied

def batchFromRecord (ox : Oxrdf) (graph : GraphId) (record : OpMeta)
    (changes : List MaterializedQuadChange) : Except UpdateError Batch :=
  match checkChanges ox changes with
  | .error e => .error (.sync e)
  | .ok () =>
    match Batch.fromChanges graph record.actor record.actorSeq record.observedClock changes with
    | .error e => .error (.crossGraph e)
    | .ok b => .ok b

/-- A local write with sync: published first, then applied as the record it became. -/
def commitSync (ox : Oxrdf) (admits : GraphState → List MaterializedQuadChange → Bool)
    (actor : ActorId) (graph : GraphId) (hints : Bool) (irokle : IrokleAnswers) (s : GraphState)
    (changes : List MaterializedQuadChange) : Except UpdateError (GraphState × Batch) :=
  match s.tombstone with
  | some tombstone => .error (.graphDeleted tombstone)
  | none =>
    if changes = [] ∧ hints = false then .ok (s, emptyBatch graph actor s)
    else if admits s changes = false then .error .refused
    else if (ownPending s irokle.frontier irokle.unapplied).isSome then .error .ownPending
    else
      match batchFromRecord ox graph irokle.record changes with
      | .error e => .error e
      | .ok b =>
        if (ownPending s irokle.frontierAfter irokle.unappliedAfter).any (· ≠ b.counter) then
          .error .ownPending
        else
          -- binding the topic has created the graph record
          match applyIrokleGuarded ox s.createGraph b with
          | (s', .ok _) => .ok (s', b)
          | (_, .error e) => .error (.merge e)

/-! ## Both paths are runs of operations -/

variable {ox : Oxrdf} {admits : GraphState → List MaterializedQuadChange → Bool} {actor : ActorId}
  {graph : GraphId} {hints : Bool} {s s' : GraphState} {changes : List MaterializedQuadChange}
  {b : Batch}

/-- The staging loop pushes one operation a change and has their effect. -/
theorem stageChanges_eq {dot : Dot} {witnessed : VectorClock} {acc out : QuadTable × List QuadOp}
    (h : changes.foldlM (stageChange ox dot witnessed) acc = .ok out) :
    out.2 = acc.2 ++ changes.map (·.toOp dot witnessed) ∧
      applyOps ox acc.1 (changes.map (·.toOp dot witnessed)) = .ok out.1 := by
  induction changes generalizing acc with
  | nil =>
    cases h
    exact ⟨by simp, rfl⟩
  | cons change changes ih =>
    obtain ⟨next, hstep, hrest⟩ := Fallible.foldlM_cons_eq_ok.mp h
    obtain ⟨hops, happly⟩ := ih hrest
    obtain ⟨quad, hquad, hnext⟩ := Fallible.map_eq_ok.mp hstep
    rw [List.map_cons]
    have hhead : next.2 = acc.2 ++ [change.toOp dot witnessed] ∧
        applyOp ox acc.1 (change.toOp dot witnessed) = .ok next.1 := by
      cases change with
      | insert g terms | delete g terms =>
        rw [← hnext]
        exact ⟨rfl, Fallible.map_eq_ok.mpr ⟨quad, hquad, rfl⟩⟩
    refine ⟨?_, Fallible.foldlM_cons_eq_ok.mpr ⟨next.1, hhead.2, happly⟩⟩
    rw [hops, hhead.1, List.append_assoc]
    rfl

/-- **What a local commit can do**: answer an empty write with no event, or stage the changes
under the next counter. -/
theorem commitLocal_cases (h : commitLocal ox admits actor graph hints s changes = .ok (s', b)) :
    s.tombstone = none ∧
      ((changes = [] ∧ hints = false ∧ s' = s ∧ b = emptyBatch graph actor s) ∨
      (¬ (changes = [] ∧ hints = false) ∧ admits s changes = true ∧ ∃ counter quads,
          s.nextCounter actor = .ok counter ∧
          applyOps ox s.quads
            (changes.map (·.toOp ⟨actor, counter⟩ (s.clock.advance actor counter))) = .ok quads ∧
          s' = { s with present := true, quads := quads, clock := s.clock.advance actor counter,
                        logHeads := s.logHeads.insert actor counter } ∧
          b = ⟨graph, actor, counter, s.clock,
            changes.map (·.toOp ⟨actor, counter⟩ (s.clock.advance actor counter))⟩)) := by
  unfold commitLocal at h
  split at h
  · simp at h
  rename_i ht
  refine ⟨ht, ?_⟩
  split at h
  · next hempty =>
    cases h
    exact Or.inl ⟨hempty.1, hempty.2, rfl, rfl⟩
  rename_i hempty
  split at h
  · simp at h
  rename_i hadmits
  split at h
  · simp at h
  rename_i counter hcounter
  simp only at h
  split at h
  · simp at h
  · next quads ops hstage =>
    obtain ⟨hops, happly⟩ := stageChanges_eq hstage
    simp only [List.nil_append] at hops
    cases h
    exact Or.inr ⟨hempty, by simpa using hadmits, counter, quads, hcounter, happly, rfl,
      by rw [← hops]⟩

theorem nextCounter_eq {n : Nat} (h : s.nextCounter actor = .ok n) :
    n = s.logHeads[actor]?.getD 0 + 1 := by
  unfold GraphState.nextCounter at h
  split at h
  · next head hhead =>
    split at h
    · rw [hhead]
      exact (Except.ok.inj h).symm
    · simp at h
  · next hnone =>
    rw [hnone]
    exact (Except.ok.inj h).symm

theorem batchFromRecord_eq {record : OpMeta} (h : batchFromRecord ox graph record changes = .ok b) :
    b = ⟨graph, record.actor, record.actorSeq, record.observedClock,
      changes.map (·.toOp ⟨record.actor, record.actorSeq⟩ record.observedClock)⟩ := by
  unfold batchFromRecord at h
  split at h
  · simp at h
  · split at h
    · simp at h
    · next hbuilt =>
      cases h
      exact (Batch.fromChanges_eq_ok_iff.mp hbuilt).2

/-! ## When the returned batch replays the commit -/

/-- The batch `Batch::from_changes` would build for a commit. -/
def declaredBatch (graph : GraphId) (actor : ActorId) (counter : Nat) (s : GraphState)
    (changes : List MaterializedQuadChange) : Batch :=
  ⟨graph, actor, counter, s.clock, changes.map (·.toOp ⟨actor, counter⟩ s.clock)⟩

def MaterializedQuadChange.isInsert : MaterializedQuadChange → Bool
  | .insert _ _ => true
  | .delete _ _ => false

/-- The returned batch is accepted by every replica that covers its base clock, and brings a
replica in the author's state before the commit to the author's state after it. -/
def Replays (ox : Oxrdf) (s s' : GraphState) (b : Batch) : Prop :=
  (∀ r : GraphState, (∀ d, b.baseClock.contains d = true → r.clock.contains d = true) →
      isOk (mergeBatch ox r b).2 = true) ∧
    ∀ r : GraphState, r.tombstone = none → r.quads = s.quads → r.clock = s.clock →
      (mergeBatch ox r b).1.quads = s'.quads ∧ (mergeBatch ox r b).1.clock = s'.clock

/-- The write is well formed for a peer: the batch of its changes passes the ingress check,
and it is either an event without a delete whose dot is new to the graph, or no event at all
from an actor the graph already knows. -/
def ReplayCondition (ox : Oxrdf) (actor : ActorId) (graph : GraphId) (hints : Bool) (s : GraphState)
    (changes : List MaterializedQuadChange) : Prop :=
  if changes = [] ∧ hints = false then
    checkBatch ox (emptyBatch graph actor s) = .ok () ∧ s.clock.contains ⟨actor, 0⟩ = true
  else
    ∃ counter, s.nextCounter actor = .ok counter ∧
      checkBatch ox (declaredBatch graph actor counter s changes) = .ok () ∧
      (∀ change ∈ changes, change.isInsert = true) ∧
      s.clock.contains ⟨actor, counter⟩ = false

theorem map_toOp_of_inserts {dot : Dot} {w w' : VectorClock}
    (h : ∀ change ∈ changes, change.isInsert = true) :
    changes.map (·.toOp dot w) = changes.map (·.toOp dot w') := by
  refine List.map_congr_left fun change hmem => ?_
  cases change with
  | insert g q => rfl
  | delete g q => simpa [MaterializedQuadChange.isInsert] using h _ hmem

/-- A batch that some replica in the author's state accepts passes the check. -/
theorem Replays.checked (h : Replays ox s s' b) (hbase : b.baseClock = s.clock) :
    checkBatch ox b = .ok () ∧ checkCausalBase s b = .ok () :=
  isOk_mergeBatch_iff.mp (h.1 s fun _ hd => hbase ▸ hd)

theorem replays_emptyBatch_iff (ht : s.tombstone = none) :
    Replays ox s s (emptyBatch graph actor s) ↔
      checkBatch ox (emptyBatch graph actor s) = .ok () ∧ s.clock.contains ⟨actor, 0⟩ = true := by
  set b := emptyBatch graph actor s with hb
  have hcausal : ∀ r : GraphState, (∀ d, s.clock.contains d = true → r.clock.contains d = true) →
      checkCausalBase r b = .ok () := by
    intro r hr
    exact checkCausalBase_eq_ok_iff.mpr ⟨fun hpos => absurd hpos (by simp [hb, emptyBatch]), hr⟩
  constructor
  · intro h
    obtain ⟨hcheck, _⟩ := h.checked rfl
    refine ⟨hcheck, ?_⟩
    by_contra hnot
    -- an unknown actor gets an entry at zero, which the author does not have
    have hseen := (mergeBatch_ready hcheck (hcausal s fun _ hd => hd) ht).2
    rw [(h.2 s ht rfl rfl).2] at hseen
    exact hnot hseen
  · rintro ⟨hcheck, hseen⟩
    refine ⟨fun r hr => isOk_mergeBatch_iff.mpr ⟨hcheck, hcausal r hr⟩, ?_⟩
    intro r _ hquads hclock
    rcases mergeBatch_cases ox r b with ⟨present, e, heq⟩ | ⟨present, heq, _⟩ |
      ⟨_, _, _, hnew, _⟩
    · rw [heq]
      exact ⟨hquads, hclock⟩
    · rw [heq]
      exact ⟨hquads, hclock⟩
    · rw [hclock] at hnew
      have hid : b.identity = ⟨actor, 0⟩ := rfl
      rw [hid, hseen] at hnew
      simp at hnew

theorem replays_event_iff {counter : Nat} {quads : QuadTable} (hcounter : 0 < counter)
    (hops : applyOps ox s.quads
      (changes.map (·.toOp ⟨actor, counter⟩ (s.clock.advance actor counter))) = .ok quads)
    (hs' : s'.quads = quads) (hclock' : s'.clock = s.clock.advance actor counter)
    (hb : b = ⟨graph, actor, counter, s.clock,
      changes.map (·.toOp ⟨actor, counter⟩ (s.clock.advance actor counter))⟩) :
    Replays ox s s' b ↔
      checkBatch ox (declaredBatch graph actor counter s changes) = .ok () ∧
        (∀ change ∈ changes, change.isInsert = true) ∧
        s.clock.contains ⟨actor, counter⟩ = false := by
  have hid : b.identity = ⟨actor, counter⟩ := by rw [hb]; rfl
  have hbase : b.baseClock = s.clock := by rw [hb]
  constructor
  · intro h
    obtain ⟨hcheck, hcausal⟩ := h.checked hbase
    have hfresh : s.clock.contains ⟨actor, counter⟩ = false := by
      have := (checkCausalBase_eq_ok_iff.mp hcausal).1 (by rw [hb]; exact hcounter)
      rw [hbase, hid] at this
      exact this
    have hinserts : ∀ change ∈ changes, change.isInsert = true := by
      intro change hmem
      cases change with
      | insert g q => rfl
      | delete g q =>
        -- a delete witnesses the new dot, which the base clock has not seen
        have hop : QuadOp.remove q (s.clock.advance actor counter) ∈ b.ops := by
          rw [hb]
          exact List.mem_map.mpr ⟨_, hmem, rfl⟩
        have hwithin := (checkBatch_ok hcheck _ hop).2 ⟨actor, counter⟩
          ((VectorClock.contains_advance _ _ _ _).mpr (Or.inr ⟨rfl, le_rfl⟩))
        rw [hbase, hfresh] at hwithin
        simp at hwithin
    refine ⟨?_, hinserts, hfresh⟩
    rw [hb, map_toOp_of_inserts hinserts] at hcheck
    exact hcheck
  · rintro ⟨hcheck, hinserts, hfresh⟩
    have hdeclared : b = declaredBatch graph actor counter s changes := by
      rw [hb, map_toOp_of_inserts hinserts]
      rfl
    rw [← hdeclared] at hcheck
    have hcausal : ∀ r : GraphState, (∀ d, s.clock.contains d = true → r.clock.contains d = true) →
        checkCausalBase r b = .ok () := by
      intro r hr
      refine checkCausalBase_eq_ok_iff.mpr ⟨fun _ => by rw [hbase, hid, hfresh], ?_⟩
      rw [hbase]
      exact hr
    refine ⟨fun r hr => isOk_mergeBatch_iff.mpr ⟨hcheck, hcausal r (hbase ▸ hr)⟩, ?_⟩
    intro r ht hquads hclock
    have hready := hcausal r fun _ hd => hclock ▸ hd
    rcases mergeBatch_cases ox r b with ⟨present, e, heq⟩ | ⟨present, heq, _, _, hskip⟩ |
      ⟨_, _, _, _, quads', hops', heq⟩
    · have hok := isOk_mergeBatch_iff.mpr ⟨hcheck, hready⟩
      rw [heq] at hok
      simp [isOk] at hok
    · rw [ht, hclock, hid, hfresh] at hskip
      simp at hskip
    · have hquads' : quads' = quads := by
        have hops'' : applyOps ox s.quads b.ops = .ok quads := by rw [hb]; exact hops
        rw [hquads, hops''] at hops'
        exact (Except.ok.inj hops').symm
      rw [heq]
      refine ⟨by rw [hquads', hs'], ?_⟩
      rw [hclock', hclock, hb]

/-- **When a local commit replays.** The batch a commit without sync returns is accepted by
every replica that covers its base clock, and replays the author's effect, exactly when the
batch of its changes passes the ingress check, none of them is a delete and its dot is new to
the graph (or, for a write with no event, the graph knows the actor). -/
theorem commitLocal_replays_iff
    (h : commitLocal ox admits actor graph hints s changes = .ok (s', b)) :
    Replays ox s s' b ↔ ReplayCondition ox actor graph hints s changes := by
  obtain ⟨ht, hcases⟩ := commitLocal_cases h
  rcases hcases with ⟨hnil, hhints, rfl, rfl⟩ | ⟨hevent, _, counter, quads, hcounter, hops, hs', hb⟩
  · unfold ReplayCondition
    rw [if_pos ⟨hnil, hhints⟩]
    exact replays_emptyBatch_iff ht
  unfold ReplayCondition
  rw [if_neg hevent, replays_event_iff (by have := nextCounter_eq hcounter; omega) hops
    (by rw [hs']) (by rw [hs']) hb]
  constructor
  · rintro hcond
    exact ⟨counter, hcounter, hcond⟩
  · rintro ⟨counter', hcounter', hcond⟩
    rw [hcounter] at hcounter'
    cases hcounter'
    exact hcond

/-- A replica that holds the sample quad under actor 1's dot. -/
def heldState : GraphState := (mergeBatch ntriplesOxrdf GraphState.unknown insertBatch).1

/-- The replica after actor 2 has inserted the quad once more. -/
def heldTwice : GraphState :=
  { heldState with quads := heldState.quads.insertQuad sampleQuad ⟨2, 1⟩
                   clock := heldState.clock.advance 2 1
                   logHeads := heldState.logHeads.insert 2 1 }

theorem commitLocal_replays_iff_insert :
    commitLocal ntriplesOxrdf (fun _ _ => true) 2 sampleGraph false heldState
        [.insert sampleGraph sampleQuad] =
      .ok (heldTwice, ⟨sampleGraph, 2, 1, heldState.clock, [.add sampleQuad ⟨2, 1⟩]⟩) ∧
    Replays ntriplesOxrdf heldState heldTwice
      ⟨sampleGraph, 2, 1, heldState.clock, [.add sampleQuad ⟨2, 1⟩]⟩ := by
  have hcommit : commitLocal ntriplesOxrdf (fun _ _ => true) 2 sampleGraph false heldState
        [.insert sampleGraph sampleQuad] =
      .ok (heldTwice, ⟨sampleGraph, 2, 1, heldState.clock, [.add sampleQuad ⟨2, 1⟩]⟩) := by
    decide +kernel
  refine ⟨hcommit, (commitLocal_replays_iff hcommit).mpr ?_⟩
  refine ⟨1, ?_, ?_, ?_, ?_⟩
  all_goals decide +kernel

/-- A delete is not: the batch that the author of a delete returns is refused by a replica in
the author's own state, because the remove witnesses the event it is part of. -/
theorem commitLocal_delete_refused :
    ∃ s' b, commitLocal ntriplesOxrdf (fun _ _ => true) 2 sampleGraph false heldState
        [.delete sampleGraph sampleQuad] = .ok (s', b) ∧
      b.baseClock = heldState.clock ∧
      isOk (mergeBatch ntriplesOxrdf heldState b).2 = false := by
  refine ⟨_, _, rfl, ?_, ?_⟩
  all_goals decide +kernel

end Craqle
