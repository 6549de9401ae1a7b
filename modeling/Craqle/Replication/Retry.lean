import Craqle.Lib.Transition
import Craqle.Replication.Topic

/-! # Retried records

Runs of a node that reconciles pages of its topics, binds topics for local writes and retries
rejected records. A run remembers which records changed something (`applied`) and which
retries answered `ok true` (`retried`).

A dot leaves a live graph only by the remove of an applied record, and enters it only by the add
of one (`Keeps`). A retry of a record that the graph's clock does not cover runs the record's
operations on the stored quads, so right after it the dots that the record adds are stored and
those that its removes witnessed are gone. From then on they stay so, until a record that is applied
later removes the ones or adds the others (`InEffect`): a remove does not remember what it
witnessed, and an add that should have come first brings its dot back.

A retry of a record that the clock covers applies nothing and still answers `ok true`: a later
record of the same actor is enough to cover it.
-/

namespace Craqle

open TopicNode List
open Transition (System Reachable anyStep)

/-! ## What records do -/

/-- The batch of a well-formed quad mutation. -/
def EventRecord.batch (ox : Oxrdf) (r : EventRecord) : Option Batch :=
  match r.event with
  | .mutation graph changes => (batchFromRecord ox graph r.opMeta changes).toOption
  | _ => none

def EventRecord.AddsDot (ox : Oxrdf) (r : EventRecord) (g : GraphId) (q : Triple) (d : Dot) : Prop :=
  r.event.graph = g ∧ ∃ b, r.batch ox = some b ∧ ∃ op ∈ b.ops, op.Adds ox q d

def EventRecord.RemovesDot (ox : Oxrdf) (r : EventRecord) (g : GraphId) (q : Triple) (d : Dot) :
    Prop :=
  r.event.graph = g ∧ ∃ b, r.batch ox = some b ∧ ∃ op ∈ b.ops, op.Removes ox q d

/-- A graph that is live afterwards was live before. Its dots are kept but for those that a
record of the log removes, and those that are new are added by a record of the log. -/
def Keeps (ox : Oxrdf) (log : List EventRecord) (n n' : TopicNode) : Prop :=
  ∀ g, (n'.graphs g).tombstone = none → (n.graphs g).tombstone = none ∧ ∀ q d,
    (d ∈ (n.graphs g).quads.dots q →
      d ∈ (n'.graphs g).quads.dots q ∨ ∃ r ∈ log, r.RemovesDot ox g q d) ∧
    (d ∈ (n'.graphs g).quads.dots q →
      d ∈ (n.graphs g).quads.dots q ∨ ∃ r ∈ log, r.AddsDot ox g q d)

def SameData (n n' : TopicNode) : Prop :=
  ∀ g, (n'.graphs g).quads = (n.graphs g).quads ∧ (n'.graphs g).tombstone = (n.graphs g).tombstone

variable {ox : Oxrdf} {n n' n'' : TopicNode} {log log' : List EventRecord}

theorem SameData.refl (n : TopicNode) : SameData n n := fun _ => ⟨rfl, rfl⟩

theorem SameData.keeps (h : SameData n n') : Keeps ox log n n' := by
  intro g hlive
  obtain ⟨hquads, htomb⟩ := h g
  rw [htomb] at hlive
  refine ⟨hlive, fun q d => ?_⟩
  rw [hquads]
  exact ⟨Or.inl, Or.inl⟩

theorem Keeps.trans (h : Keeps ox log n n') (h' : Keeps ox log' n' n'') :
    Keeps ox (log' ++ log) n n'' := by
  intro g hlive
  obtain ⟨hmid, hkeep'⟩ := h' g hlive
  obtain ⟨hstart, hkeep⟩ := h g hmid
  refine ⟨hstart, fun q d => ⟨fun hd => ?_, fun hd => ?_⟩⟩
  · rcases (hkeep q d).1 hd with hstored | ⟨r, hr, hrem⟩
    · refine ((hkeep' q d).1 hstored).imp id ?_
      exact fun ⟨r, hr, hrem⟩ => ⟨r, mem_append_left _ hr, hrem⟩
    · exact Or.inr ⟨r, mem_append_right _ hr, hrem⟩
  · rcases (hkeep' q d).2 hd with hstored | ⟨r, hr, hadd⟩
    · refine ((hkeep q d).2 hstored).imp id ?_
      exact fun ⟨r, hr, hadd⟩ => ⟨r, mem_append_right _ hr, hadd⟩
    · exact Or.inr ⟨r, mem_append_left _ hr, hadd⟩

variable {g : GraphId}

theorem sameData_setGraph {s : GraphState} (hquads : s.quads = (n.graphs g).quads)
    (htomb : s.tombstone = (n.graphs g).tombstone) : SameData n (n.setGraph g s) := by
  intro g'
  by_cases hg : g' = g
  · subst hg
    simp [hquads, htomb]
  · simp [graphs_setGraph_of_ne n hg]

theorem sameData_bindTopic (g : GraphId) (topic : TopicId) : SameData n (n.bindTopic g topic) :=
  sameData_setGraph (n := n) (g := g) (s := (n.graphs g).createGraph) rfl rfl

theorem sameData_ensureTopic (env : TopicEnv) (g : GraphId) : SameData n (n.ensureTopic env g) := by
  unfold ensureTopic
  split
  · exact SameData.refl n
  · exact sameData_bindTopic g _

variable {topic : TopicId}

theorem sameData_bindGraphTopic (h : n.bindGraphTopic g topic = .ok n') :
    SameData n n' ∧ ∀ g, (n'.graphs g).clock = (n.graphs g).clock := by
  unfold bindGraphTopic at h
  split at h
  · split at h
    · simp at h
    · cases h
      exact ⟨SameData.refl n, fun _ => rfl⟩
  · cases h
    refine ⟨sameData_bindTopic g topic, fun g' => ?_⟩
    by_cases hg : g' = g
    · subst hg
      simp [bindTopic, GraphState.createGraph]
    · simp [bindTopic, graphs_setGraph_of_ne n hg]

/-! ## Applying one record -/

/-- The operations of the record's batch were run on a table of quads. -/
def EventRecord.RunsOn (ox : Oxrdf) (r : EventRecord) (t t' : QuadTable) : Prop :=
  ∃ b, r.batch ox = some b ∧ applyOps ox t b.ops = .ok t'

section RunsOn

variable {r : EventRecord} {t t' : QuadTable} (h : r.RunsOn ox t t') {q : Triple} {d : Dot}
include h

/-- A dot stays, unless the record removes it. -/
theorem EventRecord.RunsOn.keeps (hd : d ∈ t.dots q) :
    d ∈ t'.dots q ∨ r.RemovesDot ox r.event.graph q d := by
  obtain ⟨b, hbatch, hops⟩ := h
  by_cases hrem : ∃ op ∈ b.ops, op.Removes ox q d
  · exact Or.inr ⟨rfl, b, hbatch, hrem⟩
  · have hnot : ∀ op ∈ b.ops, ¬ op.Removes ox q d := fun op hop hr => hrem ⟨op, hop, hr⟩
    exact Or.inl ((mem_applyOps_of_not_removes hops hnot).mpr (Or.inl hd))

/-- A dot that the record adds is stored, or a remove of the record took it again. -/
theorem EventRecord.RunsOn.adds (hadds : r.AddsDot ox g q d) :
    d ∈ t'.dots q ∨ r.RemovesDot ox g q d := by
  obtain ⟨b, hbatch, hops⟩ := h
  obtain ⟨hgraph, b', hbatch', hadd⟩ := hadds
  cases hbatch.symm.trans hbatch'
  by_cases hrem : ∃ op ∈ b.ops, op.Removes ox q d
  · exact Or.inr ⟨hgraph, b, hbatch, hrem⟩
  · have hnot : ∀ op ∈ b.ops, ¬ op.Removes ox q d := fun op hop hr => hrem ⟨op, hop, hr⟩
    exact Or.inl ((mem_applyOps_of_not_removes hops hnot).mpr (Or.inr hadd))

/-- A dot that is stored afterwards and that the record does not add was stored before, and no
remove of the record witnessed it. -/
theorem EventRecord.RunsOn.of_mem (hd : d ∈ t'.dots q) :
    r.AddsDot ox r.event.graph q d ∨ d ∈ t.dots q ∧ ¬ r.RemovesDot ox r.event.graph q d := by
  obtain ⟨b, hbatch, hops⟩ := h
  by_cases hadd : ∃ op ∈ b.ops, op.Adds ox q d
  · exact Or.inl ⟨rfl, b, hbatch, hadd⟩
  · have hnot : ∀ op ∈ b.ops, ¬ op.Adds ox q d := fun op hop hr => hadd ⟨op, hop, hr⟩
    obtain ⟨hold, hrem⟩ := (mem_applyOps_of_not_adds hops hnot).mp hd
    refine Or.inr ⟨hold, ?_⟩
    rintro ⟨-, b', hbatch', op, hop, hremoves⟩
    cases hbatch.symm.trans hbatch'
    exact hrem op hop hremoves

end RunsOn

/-- The record was applied: its operations were run on its graph. -/
def Ran (ox : Oxrdf) (r : EventRecord) (n n' : TopicNode) : Prop :=
  ∃ s', r.RunsOn ox (n.graphs r.event.graph).quads s'.quads ∧ s'.tombstone = none ∧
    n' = n.setGraph r.event.graph s'

theorem Ran.keeps {r : EventRecord} (h : Ran ox r n n')
    (hlive : (n.graphs r.event.graph).tombstone = none) : Keeps ox [r] n n' := by
  obtain ⟨s', hruns, _, rfl⟩ := h
  intro g hg
  by_cases hgraph : g = r.event.graph
  · subst hgraph
    refine ⟨hlive, fun q d => ?_⟩
    rw [graphs_setGraph_self]
    refine ⟨fun hd => ?_, fun hd => ?_⟩
    · exact (hruns.keeps hd).imp id fun hrem => ⟨r, mem_singleton_self r, hrem⟩
    · exact (hruns.of_mem hd).symm.imp And.left fun hadd => ⟨r, mem_singleton_self r, hadd⟩
  · rw [graphs_setGraph_of_ne n hgraph] at hg ⊢
    exact ⟨hg, fun q d => ⟨Or.inl, Or.inl⟩⟩

theorem keeps_deleteGraph (tombstone : GraphTombstone) : Keeps ox log n (n.deleteGraph tombstone) := by
  intro g hlive
  by_cases hg : g = tombstone.graph
  · subst hg
    -- a deleted graph has a tombstone, the old one or the new one
    have hset : (n.deleteGraph tombstone).graphs tombstone.graph =
        (n.graphs tombstone.graph).deleteGraphInner tombstone := graphs_setGraph_self ..
    rw [hset] at hlive
    unfold GraphState.deleteGraphInner at hlive
    simp only at hlive
    split at hlive
    · split at hlive
      · simp at hlive
      · simp at hlive
    · simp at hlive
  · have hsame : (n.deleteGraph tombstone).graphs g = n.graphs g := graphs_setGraph_of_ne n hg _
    rw [hsame] at hlive ⊢
    exact ⟨hlive, fun q d => ⟨Or.inl, Or.inl⟩⟩

/-- **What applying a record can do**: change no quads, in which case a mutation was not
applied, and if it was accepted the clock has it; delete a graph; or run the record's batch. -/
theorem applyRecordLocked_cases (env : TopicEnv) (n : TopicNode) (topic : TopicId)
    (record : EventRecord) :
    (SameData n (applyRecordLocked env n topic record).1 ∧
      ∀ g changes, record.event = .mutation g changes →
        (applyRecordLocked env n topic record).2 ≠ .ok true ∧
        ((applyRecordLocked env n topic record).2 = .ok false →
          (n.graphs g).clock.contains ⟨record.opMeta.actor, record.opMeta.actorSeq⟩ = true)) ∨
    (∃ tombstone, record.event = .graphDeleted tombstone ∧
      (applyRecordLocked env n topic record).1 = n.deleteGraph tombstone) ∨
    ((applyRecordLocked env n topic record).2 = .ok true ∧
      (n.graphs record.event.graph).tombstone = none ∧
      Ran env.ox record n (applyRecordLocked env n topic record).1) := by
  unfold applyRecordLocked
  cases hevent : record.event with
  | graphDeleted tombstone =>
    simp only
    split
    · exact Or.inl ⟨SameData.refl n, by simp⟩
    · exact Or.inr (Or.inl ⟨tombstone, rfl, rfl⟩)
  | policy graph tag =>
    refine Or.inl ⟨?_, by simp⟩
    simp only
    split
    · exact SameData.refl n
    split
    · exact SameData.refl n
    · split
      · exact SameData.refl n
      · split
        · exact SameData.refl n
        · exact sameData_setGraph (n := n) (g := graph) (s := (n.graphs graph).createGraph) rfl rfl
  | mutation graph changes =>
    simp only
    split
    · exact Or.inl ⟨SameData.refl n, by simp⟩
    rename_i hlive
    split
    · exact Or.inl ⟨SameData.refl n, by simp⟩
    rename_i b hb
    have hid : b.identity = ⟨record.opMeta.actor, record.opMeta.actorSeq⟩ := by
      rw [batchFromRecord_eq hb]
      rfl
    have hbatch : record.batch env.ox = some b := by
      simp [EventRecord.batch, hevent, hb, Except.toOption]
    rcases applyIroklePlan_cases env.ox (n.graphs graph) b with ⟨hdead, _⟩ |
      ⟨_, hseen, heq⟩ | ⟨_, _, p, _, heq⟩ | ⟨_, _, quads, hops, heq⟩
    · simp [hlive] at hdead
    · rw [heq]
      refine Or.inl ⟨sameData_setGraph rfl rfl, ?_⟩
      intro g changes' hg
      cases hg
      exact ⟨by simp, fun _ => hid ▸ hseen⟩
    · rw [heq]
      exact Or.inl ⟨sameData_setGraph rfl rfl, by simp⟩
    · rw [heq]
      refine Or.inr (Or.inr ⟨rfl, hlive,
        { n.graphs graph with
          present := true
          quads := quads
          clock := (n.graphs graph).clock.advance b.actor b.counter },
        ⟨b, hbatch, ?_⟩, hlive, ?_⟩)
      · rw [hevent]
        exact hops
      · rw [hevent]
        rfl

def changedBy (record : EventRecord) (result : Except RecordError Bool) : List EventRecord :=
  if result = .ok true then [record] else []

theorem keeps_applyRecordLocked (env : TopicEnv) (n : TopicNode) (topic : TopicId)
    (record : EventRecord) :
    Keeps env.ox (changedBy record (applyRecordLocked env n topic record).2) n
      (applyRecordLocked env n topic record).1 := by
  rcases applyRecordLocked_cases env n topic record with ⟨hsame, _⟩ | ⟨tombstone, _, heq⟩ |
    ⟨hok, hlive, hran⟩
  · exact hsame.keeps
  · rw [heq]
    exact keeps_deleteGraph tombstone
  · unfold changedBy
    rw [if_pos hok]
    exact hran.keeps hlive

/-- A record that is not refused is applied, after its topic was bound if it was not. -/
theorem applyReconciledRecord_cases (env : TopicEnv) (n : TopicNode) (topic : TopicId)
    (record : EventRecord) :
    (∃ e, applyReconciledRecord env n topic record = (n, .error e)) ∨
    ∃ n₁, SameData n n₁ ∧ (∀ g, (n₁.graphs g).clock = (n.graphs g).clock) ∧
      applyReconciledRecord env n topic record = applyRecordLocked env n₁ topic record := by
  unfold applyReconciledRecord
  split
  · split
    · exact .inl ⟨_, rfl⟩
    · exact .inr ⟨n, SameData.refl n, fun _ => rfl, rfl⟩
  split
  · exact .inl ⟨_, rfl⟩
  · next n₁ hbind =>
    obtain ⟨hsame, hclock⟩ := sameData_bindGraphTopic hbind
    exact .inr ⟨n₁, hsame, hclock, rfl⟩

/-- **One record keeps the dots** of live graphs but for those it removes. -/
theorem keeps_applyReconciledRecord (env : TopicEnv) (n : TopicNode) (topic : TopicId)
    (record : EventRecord) :
    Keeps env.ox (changedBy record (applyReconciledRecord env n topic record).2) n
      (applyReconciledRecord env n topic record).1 := by
  rcases applyReconciledRecord_cases env n topic record with ⟨e, heq⟩ | ⟨n₁, hsame, _, heq⟩
  · rw [heq]
    exact (SameData.refl n).keeps
  · have hstart : Keeps env.ox [] n n₁ := hsame.keeps
    have hall := hstart.trans (keeps_applyRecordLocked env n₁ topic record)
    rw [append_nil] at hall
    rw [heq]
    exact hall

variable {record : EventRecord}

/-- **An accepted mutation that the clock does not cover is applied**: its operations are run on the
quads of its graph. -/
theorem applyReconciledRecord_uncovered {env : TopicEnv} {changes : List MaterializedQuadChange}
    {applied : Bool} (hevent : record.event = .mutation g changes)
    (hnew : (n.graphs g).clock.contains ⟨record.opMeta.actor, record.opMeta.actorSeq⟩ = false)
    (h : applyReconciledRecord env n topic record = (n', .ok applied)) :
    applied = true ∧ record.RunsOn env.ox (n.graphs g).quads (n'.graphs g).quads := by
  have hgraph : record.event.graph = g := by
    rw [hevent]
    rfl
  -- binding the topic changes no clock, so the record is new to the node that applies it
  rcases applyReconciledRecord_cases env n topic record with ⟨e, heq⟩ |
    ⟨n₁, hsame, hclock, hlocked⟩
  · rw [h] at heq
    cases heq
  rw [h] at hlocked
  rcases applyRecordLocked_cases env n₁ topic record with ⟨_, hmut⟩ | ⟨tombstone, hdel, _⟩ |
    ⟨hok, _, hran⟩
  · obtain ⟨hfalse, hseen⟩ := hmut g changes hevent
    rw [← hlocked] at hfalse hseen
    cases applied with
    | true => exact absurd rfl hfalse
    | false =>
      have hcovered := hseen rfl
      rw [hclock, hnew] at hcovered
      simp at hcovered
  · rw [hevent] at hdel
    simp at hdel
  · rw [← hlocked] at hok hran
    obtain ⟨s', hruns, -, rfl⟩ := hran
    rw [hgraph, (hsame g).1] at hruns
    refine ⟨Except.ok.inj hok, ?_⟩
    rw [hgraph, graphs_setGraph_self]
    exact hruns

/-! ## A pass and a retry -/

theorem sameData_recordReplicationRejection (r : RejectedReplicationRecord) :
    SameData n (n.recordReplicationRejection r) := fun _ => ⟨rfl, rfl⟩

theorem keeps_reconcileRecord (env : TopicEnv) (topic : TopicId) (pass : TopicPass)
    (record : TopicRecord) (h : Keeps env.ox pass.applied n pass.node) :
    Keeps env.ox (reconcileRecord env topic pass record).applied n
      (reconcileRecord env topic pass record).node := by
  unfold reconcileRecord
  split
  · exact h
  cases record with
  | control m => exact h
  | rejected id m kind reason => exact h
  | event record =>
    have hkeep := keeps_applyReconciledRecord env pass.node topic record
    simp only
    split
    · next n₁ applied heq =>
      rw [heq] at hkeep
      have hall := h.trans hkeep
      cases applied with
      | true => exact hall
      | false => exact hall
    · next n₁ e heq =>
      rw [heq] at hkeep
      have hall : Keeps env.ox pass.applied n n₁ := h.trans hkeep
      split
      · exact hall
      · exact hall

/-- **A pass keeps the dots** of live graphs but for those its applied records remove. -/
theorem keeps_reconcileTopic (env : TopicEnv) (n : TopicNode) (topic : TopicId)
    (records : List TopicRecord) :
    Keeps env.ox (reconcileTopic env n topic records).applied n
      (reconcileTopic env n topic records).node := by
  refine foldlRecOn (motive := fun pass : TopicPass => Keeps env.ox pass.applied n pass.node)
    records (reconcileRecord env topic) (SameData.refl n).keeps ?_
  exact fun pass h record _ => keeps_reconcileRecord env topic pass record h

theorem retryRejected_cases (env : TopicEnv) (n : TopicNode) (topic : TopicId) (id : OpId)
    (answer : Option TopicRecord) :
    (∃ record n₁ result, answer = some (.event record) ∧
      applyReconciledRecord env n topic record = (n₁, result) ∧
      SameData n₁ (retryRejected env n topic id answer).1 ∧
      ((retryRejected env n topic id answer).2 = .ok true ↔ ∃ applied, result = .ok applied)) ∨
    (SameData n (retryRejected env n topic id answer).1 ∧
      (retryRejected env n topic id answer).2 ≠ .ok true) := by
  unfold retryRejected
  split
  · exact Or.inr ⟨SameData.refl n, by simp⟩
  split
  · exact Or.inr ⟨SameData.refl n, by simp⟩
  split
  · exact Or.inr ⟨SameData.refl n, by simp⟩
  · exact Or.inr ⟨SameData.refl n, by simp⟩
  · exact Or.inr ⟨sameData_recordReplicationRejection _, by simp⟩
  · next record =>
    rcases happly : applyReconciledRecord env n topic record with ⟨n₁, e | applied⟩
    · refine Or.inl ⟨record, n₁, .error e, rfl, happly, ?_⟩
      simp only
      split
      · exact ⟨sameData_recordReplicationRejection _, by simp⟩
      · exact ⟨SameData.refl n₁, by simp⟩
    · exact Or.inl ⟨record, n₁, .ok applied, rfl, happly, SameData.refl n₁, by simp⟩

/-! ## Runs -/

/-- A node with the history of its run: the records that changed something, and the records
whose retry answered `ok true`. -/
structure TopicRun where
  node : TopicNode
  applied : List EventRecord
  retried : List EventRecord

/-- A step of a node: a pass over a page of a topic, a local write that binds a topic, or the
retry of a rejected record. Irokle's answers are part of the step. -/
inductive TopicStep where
  | reconcile (topic : TopicId) (records : List TopicRecord)
  | ensure (graph : GraphId)
  | retry (topic : TopicId) (id : OpId) (answer : Option TopicRecord)

/-- The record of a retry that answered `ok true`. -/
def retriedRecord : Option TopicRecord → Except RecordError Bool → Option EventRecord
  | some (.event record), result => if result = .ok true then some record else none
  | _, _ => none

def TopicStep.run (env : TopicEnv) (r : TopicRun) : TopicStep → TopicRun
  | .reconcile topic records =>
    let pass := reconcileTopic env r.node topic records
    { r with node := pass.node, applied := pass.applied ++ r.applied }
  | .ensure graph => { r with node := r.node.ensureTopic env graph }
  | .retry topic id answer =>
    let out := retryRejected env r.node topic id answer
    match retriedRecord answer out.2 with
    | some record =>
      { node := out.1
        applied := changedBy record (applyReconciledRecord env r.node topic record).2 ++ r.applied
        retried := record :: r.retried }
    | none => { r with node := out.1 }

def TopicNode.empty : TopicNode where
  graphs _ := GraphState.unknown
  topicOf _ := none
  policyTag _ := PolicyTag.genesis
  deletedPolicy _ := none
  binding _ := none
  rejections _ _ := none
  cursors _ := VectorClock.new

def topicSystem (env : TopicEnv) : System TopicRun TopicStep where
  init r := r = ⟨TopicNode.empty, [], []⟩
  step r i r' := r' = i.run env r

/-- The clock of the graph does not cover a record that is retried. -/
def TopicStep.RetriesUncovered (r : TopicRun) : TopicStep → Prop
  | .retry _ _ (some (.event record)) =>
    (r.node.graphs record.event.graph).clock.contains
      ⟨record.opMeta.actor, record.opMeta.actorSeq⟩ = false
  | _ => True

/-- A mutation is in effect: it was applied, and in a live graph the dots that it adds are stored or
were removed by it or by a record applied since, and those that its removes witnessed are gone or
were added by it or by a record applied since. -/
def InEffect (ox : Oxrdf) (r : TopicRun) (record : EventRecord) : Prop :=
  ∀ g changes, record.event = .mutation g changes →
    ∃ since before, r.applied = since ++ record :: before ∧
      ((r.node.graphs g).tombstone = none → ∀ q d,
        (record.AddsDot ox g q d →
          d ∈ (r.node.graphs g).quads.dots q ∨ ∃ c ∈ since ++ [record], c.RemovesDot ox g q d) ∧
        (record.RemovesDot ox g q d →
          d ∉ (r.node.graphs g).quads.dots q ∨ ∃ c ∈ since ++ [record], c.AddsDot ox g q d))

theorem InEffect.of_keeps {r r' : TopicRun} (h : InEffect ox r record)
    (hkeep : Keeps ox log r.node r'.node) (happlied : r'.applied = log ++ r.applied) :
    InEffect ox r' record := by
  intro g changes hevent
  obtain ⟨since, before, hsince, hdots⟩ := h g changes hevent
  refine ⟨log ++ since, before, by rw [happlied, hsince, append_assoc], fun hlive q d => ?_⟩
  obtain ⟨hlive₀, hkept⟩ := hkeep g hlive
  obtain ⟨hadded, hremoved⟩ := hdots hlive₀ q d
  rw [append_assoc]
  refine ⟨fun hadds => ?_, fun hremoves => ?_⟩
  · rcases hadded hadds with hstored | ⟨c, hc, hrem⟩
    · exact ((hkept q d).1 hstored).imp id fun ⟨c, hc, hrem⟩ => ⟨c, mem_append_left _ hc, hrem⟩
    · exact Or.inr ⟨c, mem_append_right _ hc, hrem⟩
  · rcases hremoved hremoves with hgone | ⟨c, hc, hadd⟩
    · refine or_iff_not_imp_left.mpr fun hstored => ?_
      obtain ⟨c, hc, hadd⟩ := ((hkept q d).2 (not_not.mp hstored)).resolve_left hgone
      exact ⟨c, mem_append_left _ hc, hadd⟩
    · exact Or.inr ⟨c, mem_append_right _ hc, hadd⟩

theorem exists_keeps_step (env : TopicEnv) (r : TopicRun) (i : TopicStep) :
    ∃ log, Keeps env.ox log r.node (i.run env r).node ∧ (i.run env r).applied = log ++ r.applied := by
  cases i with
  | reconcile topic records => exact ⟨_, keeps_reconcileTopic env r.node topic records, rfl⟩
  | ensure graph => exact ⟨[], (sameData_ensureTopic env graph).keeps, rfl⟩
  | retry topic id answer =>
    simp only [TopicStep.run]
    rcases retryRejected_cases env r.node topic id answer with
      ⟨record, n₁, result, rfl, happly, hsame, hok⟩ | ⟨hsame, hno⟩
    · have hkeep := keeps_applyReconciledRecord env r.node topic record
      rw [happly] at hkeep
      have hall : Keeps env.ox ([] ++ changedBy record result) r.node
          (retryRejected env r.node topic id (some (.event record))).1 := hkeep.trans hsame.keeps
      cases result with
      | ok applied =>
        have hsome : retriedRecord (some (.event record))
            (retryRejected env r.node topic id (some (.event record))).2 = some record := by
          simp [retriedRecord, hok.mpr ⟨applied, rfl⟩]
        rw [hsome]
        simp only [happly]
        exact ⟨_, hall, rfl⟩
      | error e =>
        have hfalse : (retryRejected env r.node topic id (some (.event record))).2 ≠ .ok true := by
          intro htrue
          obtain ⟨applied, heq⟩ := hok.mp htrue
          simp at heq
        simp only [retriedRecord, if_neg hfalse]
        exact ⟨_, hall, rfl⟩
    · have hnone : retriedRecord answer (retryRejected env r.node topic id answer).2 = none := by
        match answer with
        | none => rfl
        | some (.control _) => rfl
        | some (.rejected _ _ _ _) => rfl
        | some (.event record) => simp [retriedRecord, hno]
      rw [hnone]
      exact ⟨[], hsame.keeps, rfl⟩

/-- **A retry that answers `ok true`** has deleted the rejection and run the operations of the record
on the quads that were stored before it. -/
theorem retryRejected_runs {env : TopicEnv} {id : OpId} {changes : List MaterializedQuadChange}
    (hevent : record.event = .mutation g changes)
    (hnew : (n.graphs g).clock.contains ⟨record.opMeta.actor, record.opMeta.actorSeq⟩ = false)
    (h : (retryRejected env n topic id (some (.event record))).2 = .ok true) :
    (retryRejected env n topic id (some (.event record))).1.rejections topic id = none ∧
      (applyReconciledRecord env n topic record).2 = .ok true ∧
      record.RunsOn env.ox (n.graphs g).quads
        ((retryRejected env n topic id (some (.event record))).1.graphs g).quads := by
  unfold retryRejected at h ⊢
  split at h
  · cases h
  split at h
  · cases h
  rename_i rejected hrejected hmay
  rcases happly : applyReconciledRecord env n topic record with ⟨n₁, e | applied⟩
  · simp only [happly] at h
    split at h <;> cases h
  · obtain ⟨rfl, hruns⟩ := applyReconciledRecord_uncovered hevent hnew happly
    simp only [if_neg hmay, happly]
    exact ⟨by simp [deleteReplicationRejection], trivial, hruns⟩

theorem inEffect_retry {env : TopicEnv} {r : TopicRun} {id : OpId} {answer : Option TopicRecord}
    (huncovered : (TopicStep.retry topic id answer).RetriesUncovered r)
    (h : retriedRecord answer (retryRejected env r.node topic id answer).2 = some record) :
    InEffect env.ox ((TopicStep.retry topic id answer).run env r) record := by
  intro g changes hevent
  have hgraph : record.event.graph = g := by
    rw [hevent]
    rfl
  -- the answer is the record, and the retry answered `ok true`
  obtain ⟨rfl, htrue⟩ : answer = some (.event record) ∧
      (retryRejected env r.node topic id answer).2 = .ok true := by
    match answer, h with
    | some (.event record'), h =>
      obtain ⟨htrue, heq⟩ := Option.ite_none_right_eq_some.mp h
      cases heq
      exact ⟨rfl, htrue⟩
  have hnew : (r.node.graphs g).clock.contains
      ⟨record.opMeta.actor, record.opMeta.actorSeq⟩ = false := by
    rw [← hgraph]
    exact huncovered
  obtain ⟨-, hok, hruns⟩ := retryRejected_runs hevent hnew htrue
  simp only [TopicStep.run, h, changedBy, if_pos hok]
  refine ⟨[], r.applied, rfl, fun _ q d => ⟨fun hadds => ?_, fun hremoves => ?_⟩⟩
  · exact (hruns.adds hadds).imp_right fun hrem => ⟨record, mem_singleton_self record, hrem⟩
  · refine or_iff_not_imp_left.mpr fun hstored => ?_
    rcases hruns.of_mem (not_not.mp hstored) with hadd | ⟨-, hnot⟩
    · exact ⟨record, mem_singleton_self record, hgraph ▸ hadd⟩
    · exact absurd (hgraph ▸ hremoves) hnot

theorem inEffect_of_retried {env : TopicEnv} {r : TopicRun}
    (h : Reachable (topicSystem env) (fun r i => i.RetriesUncovered r) r) :
    ∀ record ∈ r.retried, InEffect env.ox r record := by
  refine h.invariant (P := fun r => ∀ record ∈ r.retried, InEffect env.ox r record) ?_ ?_
  · intro r hr record hmem
    rw [hr] at hmem
    simp at hmem
  intro r i r' hr huncovered hstep record hmem
  rw [hstep] at hmem ⊢
  obtain ⟨log, hkeep, happlied⟩ := exists_keeps_step env r i
  by_cases hold : record ∈ r.retried
  · exact (hr record hold).of_keeps hkeep happlied
  -- the only step that adds to the retried records is a retry that answered
  cases i with
  | reconcile topic records | ensure graph => exact absurd hmem hold
  | retry topic id answer =>
    refine inEffect_retry huncovered ?_
    simp only [TopicStep.run] at hmem
    split at hmem
    · next record' heq =>
      rcases mem_cons.mp hmem with rfl | hmem
      · exact heq
      · exact absurd hmem hold
    · exact absurd hmem hold

/-- **Retried records are applied.** In every state of every run whose retries are of records that
the graph's clock does not cover, the next such retry that answers `ok true` deletes the rejection
and leaves the quads of the graph that the record's operations make of the stored ones, and every
record that was retried is in effect. -/
theorem retried_inEffect {env : TopicEnv} {r : TopicRun}
    (h : Reachable (topicSystem env) (fun r i => i.RetriesUncovered r) r) :
    (∀ topic id record g changes, record.event = .mutation g changes →
      (TopicStep.retry topic id (some (.event record))).RetriesUncovered r →
      (retryRejected env r.node topic id (some (.event record))).2 = .ok true →
      (retryRejected env r.node topic id (some (.event record))).1.rejections topic id = none ∧
        record.RunsOn env.ox (r.node.graphs g).quads
          ((retryRejected env r.node topic id (some (.event record))).1.graphs g).quads) ∧
    ∀ record ∈ r.retried, InEffect env.ox r record := by
  refine ⟨fun topic id record g changes hevent huncovered htrue => ?_, inEffect_of_retried h⟩
  have hgraph : record.event.graph = g := by
    rw [hevent]
    rfl
  have hnew : (r.node.graphs g).clock.contains
      ⟨record.opMeta.actor, record.opMeta.actorSeq⟩ = false := by
    rw [← hgraph]
    exact huncovered
  obtain ⟨hdeleted, -, hruns⟩ := retryRejected_runs hevent hnew htrue
  exact ⟨hdeleted, hruns⟩

/-! ## Concrete runs

Topic 7 is the topic of the sample graph, but its first record names another graph, and binds
it. Actor 1's first record is then rejected. A local write to the sample graph binds the topic
to it. -/

def otherGraph : GraphId := ⟨"urn:h".toList⟩

def otherQuad : Triple := { sampleQuad with object := ⟨"<urn:o>".toList⟩ }

def sampleTopicEnv : TopicEnv where
  ox := ntriplesOxrdf
  graphTopicId g := if g = sampleGraph then 7 else 8
  localActor _ := 9
  mayApplyPolicy _ _ := true
  mayRetry _ := true

def strayRecord : EventRecord :=
  ⟨100, ⟨3, 1, VectorClock.new⟩, .mutation otherGraph [.insert otherGraph sampleQuad]⟩

def firstInsert : EventRecord :=
  ⟨101, ⟨1, 1, VectorClock.new⟩, .mutation sampleGraph [.insert sampleGraph sampleQuad]⟩

def secondInsert : EventRecord :=
  ⟨102, ⟨1, 2, VectorClock.new.advance 1 1⟩, .mutation sampleGraph [.insert sampleGraph otherQuad]⟩

/-- Inserts one quad and deletes another, as far as actor 2's first record is concerned. -/
def firstSwap : EventRecord :=
  ⟨101, ⟨1, 1, VectorClock.new.advance 2 1⟩, .mutation sampleGraph
    [.insert sampleGraph sampleQuad, .delete sampleGraph otherQuad]⟩

def otherInsert : EventRecord :=
  ⟨103, ⟨2, 1, VectorClock.new⟩, .mutation sampleGraph [.insert sampleGraph otherQuad]⟩

def retryOf (first : EventRecord) : TopicStep := .retry 7 101 (some (.event first))

/-- The node after the stray record, the rejected one, the local write and a later record. -/
def reboundRun (first later : EventRecord) : TopicRun :=
  (TopicStep.reconcile 7 [.event later]).run sampleTopicEnv
    ((TopicStep.ensure sampleGraph).run sampleTopicEnv
      ((TopicStep.reconcile 7 [.event strayRecord, .event first]).run sampleTopicEnv
        ⟨TopicNode.empty, [], []⟩))

theorem reachable_reboundRun {allowed : TopicRun → TopicStep → Prop} (first later : EventRecord)
    (h : ∀ r topic records, allowed r (.reconcile topic records))
    (h' : ∀ r graph, allowed r (.ensure graph)) :
    Reachable (topicSystem sampleTopicEnv) allowed (reboundRun first later) :=
  .step (.reconcile 7 [.event later]) (.step (.ensure sampleGraph)
    (.step (.reconcile 7 [.event strayRecord, .event first]) (.init rfl) (h _ _ _) rfl) (h' _ _) rfl)
      (h _ _ _) rfl

/-- Actor 2's record does not cover that of actor 1, which is applied when it is retried: the quad
that it inserts is stored and the one that it deletes is gone. -/
theorem retried_inEffect_first :
    let r := (retryOf firstSwap).run sampleTopicEnv (reboundRun firstSwap otherInsert)
    firstSwap ∈ r.retried ∧ InEffect ntriplesOxrdf r firstSwap ∧
      (r.node.graphs sampleGraph).quads.dots sampleQuad = {⟨1, 1⟩} ∧
      (r.node.graphs sampleGraph).quads.dots otherQuad = ∅ := by
  intro r
  have hmem : firstSwap ∈ r.retried := by
    decide +kernel
  have hreach : Reachable (topicSystem sampleTopicEnv) (fun r i => i.RetriesUncovered r) r := by
    refine .step (retryOf firstSwap)
      (reachable_reboundRun firstSwap otherInsert (fun _ _ _ => trivial) fun _ _ => trivial) ?_ rfl
    show ((reboundRun firstSwap otherInsert).node.graphs sampleGraph).clock.contains ⟨1, 1⟩ = false
    decide +kernel
  refine ⟨hmem, (retried_inEffect hreach).2 firstSwap hmem, ?_, ?_⟩
  all_goals decide +kernel

theorem retry_covered_lost :
    ∃ r, Reachable (topicSystem sampleTopicEnv) anyStep r ∧ firstInsert ∈ r.retried ∧
      r.applied = [secondInsert, strayRecord] ∧
      r.node.rejections 7 101 = none ∧
      (r.node.graphs sampleGraph).tombstone = none ∧
      (r.node.graphs sampleGraph).quads.dots sampleQuad = ∅ := by
  refine ⟨(retryOf firstInsert).run sampleTopicEnv (reboundRun firstInsert secondInsert),
    ?_, ?_, ?_, ?_, ?_, ?_⟩
  · exact .step (retryOf firstInsert) (reachable_reboundRun firstInsert secondInsert
      (fun _ _ _ => trivial) fun _ _ => trivial) trivial rfl
  all_goals decide +kernel

end Craqle
