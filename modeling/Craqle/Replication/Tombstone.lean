import Craqle.Lib.Register
import Craqle.Replication.Retry

/-! # Deletion records in any order

A graph is deleted by `GraphDeleted` records, which may be published by several actors and
arrive in any order, between mutations and policies. `delete_graph_inner` keeps the tombstone
with the greater delete event, but `apply_delete_record` does not get there: it answers early
when the graph has a tombstone and no record. So the first deletion that arrives is the one
that stays (`buried_receiveAll`), and two replicas agree on the greatest one exactly when it
arrives first on both (`deletions_converge`).

What does hold in any order is that the graph's quads and clock are gone and that no policy is in
force. The policy that the graph had when the first deletion arrived is kept on purpose, under
`deleted_policy_key`: receipts and the history of a deleted graph are authorized by it.
-/

namespace Craqle

open TopicNode

open Register (Latest)

def receiveAll (env : TopicEnv) (n : TopicNode) (records : List (TopicId × EventRecord)) :
    TopicNode :=
  records.foldl (fun n r => (applyRecordLocked env n r.1 r.2).1) n

def deletion (graph : GraphId) (record : EventRecord) : Option GraphTombstone :=
  match record.event with
  | .graphDeleted tombstone => if tombstone.graph = graph then some tombstone else none
  | _ => none

/-- The deletions of a graph, in the order of their arrival. -/
def deletionsOf (graph : GraphId) (records : List (TopicId × EventRecord)) : List GraphTombstone :=
  records.filterMap fun r => deletion graph r.2

/-- Delete events are ordered as their bytes. -/
def GraphTombstone.rank (t : GraphTombstone) : Nat := t.deleteEvent.toNat

/-- The deletion that arrives first has the greatest delete event. -/
def GreatestFirst (deletions : List GraphTombstone) : Prop :=
  ∃ t, deletions.head? = some t ∧ Latest GraphTombstone.rank t deletions

/-- The policy of a graph when its first deletion arrives. -/
def policyAtDeletion (env : TopicEnv) (n : TopicNode) (graph : GraphId)
    (records : List (TopicId × EventRecord)) : PolicyTag :=
  (receiveAll env n (records.takeWhile fun r => (deletion graph r.2).isNone)).policyTag graph

/-- **All that is left of a graph is its tombstone and the policy it had**: no record, and with it no
policy in force, no quads and no clock. -/
structure Buried (n : TopicNode) (graph : GraphId) (tombstone : GraphTombstone)
    (policy : PolicyTag) : Prop where
  tombstone : (n.graphs graph).tombstone = some tombstone
  absent : (n.graphs graph).present = false
  unruled : n.policyTag graph = PolicyTag.genesis
  kept : n.deletedPolicy graph = some policy
  quads : (n.graphs graph).quads = QuadTable.empty
  clock : (n.graphs graph).clock = VectorClock.new

variable {env env' : TopicEnv} {n n' : TopicNode} {topic : TopicId} {record : EventRecord}
  {graph : GraphId}

/-! ## One record -/

theorem applyRecordLocked_other (env : TopicEnv) (n : TopicNode) (topic : TopicId)
    (hother : record.event.graph ≠ graph) :
    (applyRecordLocked env n topic record).1.graphs graph = n.graphs graph ∧
      (applyRecordLocked env n topic record).1.policyTag graph = n.policyTag graph ∧
      (applyRecordLocked env n topic record).1.deletedPolicy graph = n.deletedPolicy graph := by
  have hset : ∀ s, (n.setGraph record.event.graph s).graphs graph = n.graphs graph := by
    intro s
    exact Function.update_of_ne (Ne.symm hother) _ _
  unfold applyRecordLocked
  cases hevent : record.event with
  | graphDeleted t =>
    rw [hevent] at hset hother
    simp only
    split
    · exact ⟨rfl, rfl, rfl⟩
    · exact ⟨hset _, Function.update_of_ne (Ne.symm hother) _ _,
        Function.update_of_ne (Ne.symm hother) _ _⟩
  | policy g tag =>
    rw [hevent] at hset hother
    simp only
    split
    · exact ⟨rfl, rfl, rfl⟩
    split
    · exact ⟨rfl, rfl, rfl⟩
    · split
      · exact ⟨rfl, rfl, rfl⟩
      · split
        · exact ⟨rfl, rfl, rfl⟩
        · exact ⟨hset _, Function.update_of_ne (Ne.symm hother) _ _, rfl⟩
  | mutation g changes =>
    rw [hevent] at hset
    simp only
    split
    · exact ⟨rfl, rfl, rfl⟩
    · split
      · exact ⟨rfl, rfl, rfl⟩
      · split
        · exact ⟨hset _, rfl, rfl⟩
        · exact ⟨hset _, rfl, rfl⟩

variable {tombstone : GraphTombstone} {policy : PolicyTag}

/-- Nothing reaches a buried graph: deletions are taken for repetitions, everything else is
rejected. -/
theorem Buried.step (h : Buried n graph tombstone policy) :
    Buried (applyRecordLocked env n topic record).1 graph tombstone policy := by
  by_cases hgraph : record.event.graph = graph
  · have hsame : (applyRecordLocked env n topic record).1 = n := by
      unfold applyRecordLocked
      cases hevent : record.event with
      | graphDeleted t =>
        rw [hevent] at hgraph
        have ht : t.graph = graph := hgraph
        simp [ht, h.tombstone, h.absent]
      | policy g tag | mutation g changes =>
        rw [hevent] at hgraph
        have hg : g = graph := hgraph
        simp [hg, h.tombstone]
    rw [hsame]
    exact h
  · obtain ⟨hgraphs, hpolicy, hkept⟩ := applyRecordLocked_other env n topic hgraph
    exact ⟨hgraphs ▸ h.tombstone, hgraphs ▸ h.absent, hpolicy ▸ h.unruled, hkept ▸ h.kept,
      hgraphs ▸ h.quads, hgraphs ▸ h.clock⟩

theorem tombstone_applyRecordLocked (hlive : (n.graphs graph).tombstone = none)
    (hkept : deletion graph record = none) :
    ((applyRecordLocked env n topic record).1.graphs graph).tombstone = none := by
  by_cases hgraph : record.event.graph = graph
  · rcases applyRecordLocked_cases env n topic record with ⟨hsame, _⟩ | ⟨t, hevent, _⟩ |
      ⟨_, _, s, _, htombstone, heq⟩
    · rw [(hsame graph).2]
      exact hlive
    · -- the record would be a deletion of the graph
      rw [hevent] at hgraph
      have ht : t.graph = graph := hgraph
      simp [deletion, hevent, ht] at hkept
    · rw [heq, ← hgraph]
      simp [setGraph, htombstone]
  · rw [(applyRecordLocked_other env n topic hgraph).1]
    exact hlive

/-- **The first deletion buries the graph** under its own tombstone, with its policy. -/
theorem buried_of_deletion
    (hlive : (n.graphs graph).tombstone = none) (hdeletion : deletion graph record = some tombstone) :
    Buried (applyRecordLocked env n topic record).1 graph tombstone (n.policyTag graph) := by
  cases hevent : record.event with
  | policy g tag | mutation g changes => simp [deletion, hevent] at hdeletion
  | graphDeleted t =>
    obtain ⟨hgraph, rfl⟩ : t.graph = graph ∧ t = tombstone := by
      simpa [deletion, hevent] using hdeletion
    have hstep : (applyRecordLocked env n topic record).1 = n.deleteGraph t := by
      simp [applyRecordLocked, hevent, hgraph, hlive]
    have hstate : (n.deleteGraph t).graphs graph = (n.graphs graph).deleteGraphInner t := by
      simp [deleteGraph, setGraph, hgraph]
    rw [hstep]
    refine ⟨?_, ?_, ?_, ?_, ?_, ?_⟩
    · rw [hstate, GraphState.deleteGraphInner, hlive]
    · rw [hstate]
      rfl
    · simp [deleteGraph, hgraph]
    · simp [deleteGraph, hgraph]
    · rw [hstate]
      rfl
    · rw [hstate]
      rfl

/-! ## All records -/

theorem Buried.receiveAll (h : Buried n graph tombstone policy)
    (records : List (TopicId × EventRecord)) :
    Buried (receiveAll env n records) graph tombstone policy := by
  induction records generalizing n with
  | nil => exact h
  | cons r records ih => exact ih h.step

/-- **The deletion that arrives first stays.** -/
theorem buried_receiveAll {records : List (TopicId × EventRecord)}
    (hlive : (n.graphs graph).tombstone = none)
    (hfirst : (deletionsOf graph records).head? = some tombstone) :
    Buried (receiveAll env n records) graph tombstone
      (policyAtDeletion env n graph records) := by
  induction records generalizing n with
  | nil => simp [deletionsOf] at hfirst
  | cons r records ih =>
    cases hdeletion : deletion graph r.2 with
    | none =>
      have hrest : (deletionsOf graph records).head? = some tombstone := by
        simpa [deletionsOf, hdeletion] using hfirst
      have hpolicy : policyAtDeletion env n graph (r :: records) =
          policyAtDeletion env (applyRecordLocked env n r.1 r.2).1 graph records := by
        simp [policyAtDeletion, hdeletion, Craqle.receiveAll]
      rw [hpolicy]
      exact ih (tombstone_applyRecordLocked hlive hdeletion) hrest
    | some t =>
      obtain rfl : t = tombstone := by simpa [deletionsOf, hdeletion] using hfirst
      have hpolicy : policyAtDeletion env n graph (r :: records) = n.policyTag graph := by
        simp [policyAtDeletion, hdeletion, Craqle.receiveAll]
      rw [hpolicy]
      exact (buried_of_deletion hlive hdeletion).receiveAll records

theorem tombstone_receiveAll_iff {records : List (TopicId × EventRecord)}
    (hlive : (n.graphs graph).tombstone = none) (hsome : deletionsOf graph records ≠ []) :
    ((receiveAll env n records).graphs graph).tombstone = some tombstone ↔
      (deletionsOf graph records).head? = some tombstone := by
  refine ⟨fun hkept => ?_, fun hfirst => (buried_receiveAll hlive hfirst).tombstone⟩
  have hfirst := List.head?_eq_some_head hsome
  have hsame := hkept.symm.trans (buried_receiveAll hlive hfirst).tombstone
  rw [hfirst, hsame]

/-- Two replicas receive the same deletions of a graph, in any order and between any other records.
Each ends with one of them as its tombstone, and otherwise only the policy that the graph had when
its first deletion arrived is left. They agree on the tombstone with the greatest delete event
exactly when that deletion is the first one to arrive on each of them. -/
theorem deletions_converge {records records' : List (TopicId × EventRecord)}
    (hlive : (n.graphs graph).tombstone = none) (hlive' : (n'.graphs graph).tombstone = none)
    (hsome : deletionsOf graph records ≠ [])
    (hsame : ∀ t, t ∈ deletionsOf graph records ↔ t ∈ deletionsOf graph records')
    (hdistinct : ∀ t ∈ deletionsOf graph records, ∀ t' ∈ deletionsOf graph records,
      t.deleteEvent = t'.deleteEvent → t = t') :
    (∃ t ∈ deletionsOf graph records,
      Buried (receiveAll env n records) graph t (policyAtDeletion env n graph records)) ∧
    (∃ t ∈ deletionsOf graph records,
      Buried (receiveAll env' n' records') graph t (policyAtDeletion env' n' graph records')) ∧
    ((∃ t, Latest GraphTombstone.rank t (deletionsOf graph records) ∧
        ((receiveAll env n records).graphs graph).tombstone = some t ∧
        ((receiveAll env' n' records').graphs graph).tombstone = some t) ↔
      GreatestFirst (deletionsOf graph records) ∧ GreatestFirst (deletionsOf graph records')) := by
  have hsome' : deletionsOf graph records' ≠ [] := by
    intro hnil
    obtain ⟨t, ht⟩ := List.exists_mem_of_ne_nil _ hsome
    rw [hsame, hnil] at ht
    simp at ht
  refine ⟨⟨_, List.head_mem hsome, buried_receiveAll hlive (List.head?_eq_some_head hsome)⟩,
    ⟨_, (hsame _).mpr (List.head_mem hsome'),
      buried_receiveAll hlive' (List.head?_eq_some_head hsome')⟩, ?_⟩
  constructor
  · rintro ⟨t, hlatest, hkept, hkept'⟩
    have hfirst := (tombstone_receiveAll_iff hlive hsome).mp hkept
    have hfirst' := (tombstone_receiveAll_iff hlive' hsome').mp hkept'
    exact ⟨⟨t, hfirst, hlatest⟩, t, hfirst', (hsame t).mp hlatest.mem,
      fun b hb => hlatest.le b ((hsame b).mpr hb)⟩
  · rintro ⟨⟨t, hfirst, hlatest⟩, t', hfirst', hlatest'⟩
    obtain rfl : t = t' := by
      refine hlatest.unique hlatest' hsame fun c hc d hd hrank => ?_
      exact hdistinct c hc d hd (BitVec.eq_of_toNat_eq hrank)
    exact ⟨t, hlatest, (buried_receiveAll hlive hfirst).tombstone,
      (buried_receiveAll hlive' hfirst').tombstone⟩

/-! ### Two deletions -/

/-- Actor 1's deletion, whose event is the smaller one. -/
def smallDeletion : GraphTombstone := ⟨sampleGraph, 5, 1, VectorClock.new⟩

def greatDeletion : GraphTombstone := ⟨sampleGraph, 9, 2, VectorClock.new⟩

def smallRecord : TopicId × EventRecord :=
  (7, ⟨105, ⟨1, 2, VectorClock.new⟩, .graphDeleted smallDeletion⟩)

def greatRecord : TopicId × EventRecord :=
  (7, ⟨109, ⟨2, 1, VectorClock.new⟩, .graphDeleted greatDeletion⟩)

def policyRecord : TopicId × EventRecord :=
  (7, ⟨111, ⟨3, 1, VectorClock.new⟩, .policy sampleGraph ⟨1, 3⟩⟩)

/-- With the greater deletion first on both replicas they keep the same tombstone, wherever the
insert and the policy are; the policy is kept only where it came before. -/
theorem deletions_converge_great_first :
    ∃ t, Latest GraphTombstone.rank t
        (deletionsOf sampleGraph [greatRecord, (7, firstInsert), policyRecord, smallRecord]) ∧
      Buried (receiveAll sampleTopicEnv TopicNode.empty
        [greatRecord, (7, firstInsert), policyRecord, smallRecord]) sampleGraph t .genesis ∧
      Buried (receiveAll sampleTopicEnv TopicNode.empty
        [(7, firstInsert), policyRecord, greatRecord, smallRecord]) sampleGraph t ⟨1, 3⟩ := by
  have hlatest : Latest GraphTombstone.rank greatDeletion [greatDeletion, smallDeletion] :=
    ⟨by decide, by decide⟩
  obtain ⟨⟨t, -, hburied⟩, ⟨t', -, hburied'⟩, hagree⟩ := @deletions_converge sampleTopicEnv
    sampleTopicEnv TopicNode.empty TopicNode.empty sampleGraph
    [greatRecord, (7, firstInsert), policyRecord, smallRecord]
    [(7, firstInsert), policyRecord, greatRecord, smallRecord] rfl rfl (by decide +kernel)
    (fun _ => Iff.rfl) (by decide +kernel)
  obtain ⟨u, hu, hkept, hkept'⟩ := hagree.mpr ⟨⟨greatDeletion, rfl, hlatest⟩, greatDeletion, rfl,
    hlatest⟩
  obtain rfl : t = u := Option.some.inj (hburied.tombstone.symm.trans hkept)
  obtain rfl : t' = t := Option.some.inj (hburied'.tombstone.symm.trans hkept')
  have hpolicy : policyAtDeletion sampleTopicEnv TopicNode.empty sampleGraph
      [greatRecord, (7, firstInsert), policyRecord, smallRecord] = .genesis := by
    decide +kernel
  have hpolicy' : policyAtDeletion sampleTopicEnv TopicNode.empty sampleGraph
      [(7, firstInsert), policyRecord, greatRecord, smallRecord] = ⟨1, 3⟩ := by
    decide +kernel
  rw [hpolicy] at hburied
  rw [hpolicy'] at hburied'
  exact ⟨t', hu, hburied, hburied'⟩

/-- In opposite orders each replica keeps the deletion that it received first, and both keep the
policy that came before. -/
theorem deletions_diverge :
    Buried (receiveAll sampleTopicEnv TopicNode.empty [policyRecord, smallRecord, greatRecord])
      sampleGraph smallDeletion ⟨1, 3⟩ ∧
    Buried (receiveAll sampleTopicEnv TopicNode.empty [policyRecord, greatRecord, smallRecord])
      sampleGraph greatDeletion ⟨1, 3⟩ ∧ smallDeletion.deleteEvent < greatDeletion.deleteEvent :=
  ⟨buried_receiveAll rfl rfl, buried_receiveAll rfl rfl, by decide⟩

end Craqle
