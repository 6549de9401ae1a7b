import Craqle.Replication.Handover

/-! # The fence around own sequences

A node dates its records with sequences of its own actor, and a graph takes a record whose
sequence its clock has for one that it has seen. So a node must not publish while one of its own
records is not applied, nor when the topic has lost some of them. `own_pending` answers the first
sequence that is not settled, and zero for a topic that must not be published to at all: its
frontier is behind the graph's clock, or the stored cursor is of another branch. `restart_cursor`
lets a cursor of an earlier epoch start anew.

Topics change below the node: a reset starts a new epoch with what peers send again, a topic can
come back with another genesis, where a sequence means another record, and a record that is lost
before it is applied leaves its sequence to the next one. A record is settled when the node applied
it after publishing it, or when reconciliation consumed it: applied it, found it applied, or stored
it as rejected.

The fence compares sequences, not records, so it rests on two things that the topic has to keep
(`FenceStep.KeepsOwn`). A graph's clock does not say which genesis its own entry is of, so the
genesis must not change while no cursor says it; and a sequence that a clock or the cursor has must
not come back with another record. In such runs the fence holds (`own_sequence_fence`), and
`own_records_unapplied` has runs without them in which it does not.
-/

namespace Craqle

open Transition List TopicNode

/-! ## `own_pending` -/

/-- Whether a record is of concern to the store. -/
def TopicRecord.isWork : TopicRecord → Bool
  | .control _ => false
  | .rejected _ _ _ _ => true
  | .event _ => true

/-- The sequences of an actor after one, up to a number of them. -/
def actorRange (frontier : VectorClock) (actor : ActorId) (after limit : Nat) : List Nat :=
  List.range' (after + 1) (min limit (frontier.last actor - after))

/-- The first record of an actor after a sequence that is of concern to the store, read in pages
of 256. -/
def TopicBranch.firstWork (b : TopicBranch) (frontier : VectorClock) (actor : ActorId) :
    (fuel after : Nat) → Option Nat
  | 0, _ => none
  | fuel + 1, after =>
    let page := actorRange frontier actor after 256
    match page.getLast? with
    | none => none
    | some last =>
      match page.find? fun n => (b.record ⟨actor, n⟩).isWork with
      | some n => some n
      | none => b.firstWork frontier actor fuel last

/-- `own_pending`: the first own record that is not settled; zero if nothing may be published. -/
def ownWork (env : TopicEnv) (n : TopicNode) (topic : TopicId) (b : TopicBranch)
    (frontier : VectorClock) (stored : Option TopicCursor) : Option Nat :=
  match n.binding topic with
  | none => none
  | some graph =>
    let own := env.localActor topic
    let applied := (n.graphs graph).clock.last own
    if frontier.last own < applied then some 0
    else if stored.any fun c => c.epoch ≠ b.epoch || c.genesis ≠ b.genesis then some 0
    else
      let after := max applied ((progressOf stored).last own)
      b.firstWork frontier own (frontier.last own - after + 1) after

section Scan

variable {b : TopicBranch} {frontier : VectorClock} {actor : ActorId} {after : Nat}

theorem mem_actorRange {limit n : Nat} :
    n ∈ actorRange frontier actor after limit ↔
      after < n ∧ n ≤ after + limit ∧ n ≤ frontier.last actor := by
  unfold actorRange
  rw [mem_range'_1]
  omega

theorem getLast_actorRange {limit last : Nat}
    (h : (actorRange frontier actor after limit).getLast? = some last) :
    after < last ∧ last = after + min limit (frontier.last actor - after) := by
  unfold actorRange at h
  rw [getLast?_range'] at h
  split at h
  · cases h
  · cases h
    omega

/-- Nothing is found only when nothing is left of concern to the store. -/
theorem firstWork_eq_none {fuel : Nat} (hfuel : frontier.last actor - after < fuel)
    (h : b.firstWork frontier actor fuel after = none) :
    ∀ n, after < n → n ≤ frontier.last actor → (b.record ⟨actor, n⟩).isWork = false := by
  induction fuel generalizing after with
  | zero => omega
  | succ fuel ih =>
    intro n hn hle
    unfold TopicBranch.firstWork at h
    simp only at h
    split at h
    · rename_i hlast
      rw [getLast?_eq_none_iff] at hlast
      have hmem : after + 1 ∈ actorRange frontier actor after 256 := mem_actorRange.mpr (by omega)
      rw [hlast] at hmem
      cases hmem
    · rename_i last hlast
      obtain ⟨hafter, hlast⟩ := getLast_actorRange hlast
      split at h
      · cases h
      · rename_i hfind
        rw [find?_eq_none] at hfind
        by_cases hpage : n ≤ last
        · simpa using hfind n (mem_actorRange.mpr (by omega))
        · exact ih (by omega) h n (by omega) hle

/-- Everything before the first record found is of no concern. -/
theorem firstWork_eq_some {fuel m : Nat} (h : b.firstWork frontier actor fuel after = some m) :
    after < m ∧ m ≤ frontier.last actor ∧
      ∀ n, after < n → n < m → (b.record ⟨actor, n⟩).isWork = false := by
  induction fuel generalizing after with
  | zero => cases h
  | succ fuel ih =>
    unfold TopicBranch.firstWork at h
    simp only at h
    split at h
    · cases h
    rename_i last hlast
    obtain ⟨hafter, hlast⟩ := getLast_actorRange hlast
    split at h
    · rename_i found hfind
      obtain rfl := Option.some.inj h
      obtain ⟨_, before, rest, hpage, hbefore⟩ := find?_eq_some_iff_append.mp hfind
      have hmem : found ∈ actorRange frontier actor after 256 := by simp [hpage]
      have hbounds := mem_actorRange.mp hmem
      refine ⟨hbounds.1, hbounds.2.2, fun n hn hlt => ?_⟩
      -- the page is in order, so what is smaller stands before
      have hmem' : n ∈ actorRange frontier actor after 256 := mem_actorRange.mpr (by omega)
      have hsorted : (actorRange frontier actor after 256).Pairwise (· < ·) := pairwise_lt_range'
      rw [hpage] at hmem' hsorted
      rcases mem_append.mp hmem' with hin | hin
      · simpa using hbefore n hin
      · rcases mem_cons.mp hin with rfl | hin
        · omega
        · have := (pairwise_cons.mp (pairwise_append.mp hsorted).2.1).1 n hin
          omega
    · rename_i hfind
      rw [find?_eq_none] at hfind
      obtain ⟨hlow, hhigh, hrest⟩ := ih h
      refine ⟨by omega, hhigh, fun n hn hlt => ?_⟩
      by_cases hpage : n ≤ last
      · simpa using hfind n (mem_actorRange.mpr (by omega))
      · exact hrest n (by omega) hlt

end Scan

/-! ## Clocks move with the records -/

/-- The clocks of the graphs have nothing new but what some positions say. -/
def ClocksWithin (n n' : TopicNode) (ds : List Dot) : Prop :=
  ∀ g a m, m ≤ (n'.graphs g).clock.last a →
    m ≤ (n.graphs g).clock.last a ∨ ∃ d ∈ ds, d.actor = a ∧ m ≤ d.counter

namespace ClocksWithin

variable {n n' n'' : TopicNode} {ds ds' : List Dot}

theorem of_eq (h : ∀ g, (n'.graphs g).clock = (n.graphs g).clock) : ClocksWithin n n' ds :=
  fun g _ _ hm => .inl (by rwa [h g] at hm)

theorem mono (h : ClocksWithin n n' ds) (hsub : ds ⊆ ds') : ClocksWithin n n' ds' :=
  fun g a m hm => (h g a m hm).imp_right fun ⟨d, hd, hda⟩ => ⟨d, hsub hd, hda⟩

theorem trans (h : ClocksWithin n n' ds) (h' : ClocksWithin n' n'' ds') :
    ClocksWithin n n'' (ds ++ ds') := by
  intro g a m hm
  rcases h' g a m hm with hold | ⟨d, hd, hda⟩
  · rcases h g a m hold with hold | ⟨d, hd, hda⟩
    · exact .inl hold
    · exact .inr ⟨d, mem_append_left _ hd, hda⟩
  · exact .inr ⟨d, mem_append_right _ hd, hda⟩

end ClocksWithin

variable {env : TopicEnv} {topic : TopicId} {n : TopicNode}

theorem clocksWithin_setGraph {g : GraphId} {s : GraphState} {ds : List Dot}
    (h : ∀ a m, m ≤ s.clock.last a →
      m ≤ (n.graphs g).clock.last a ∨ ∃ d ∈ ds, d.actor = a ∧ m ≤ d.counter) :
    ClocksWithin n (n.setGraph g s) ds := by
  intro g' a m hm
  by_cases hg : g' = g
  · subst hg
    rw [TopicNode.graphs_setGraph_self] at hm
    exact h a m hm
  · rw [TopicNode.graphs_setGraph_of_ne n hg] at hm
    exact .inl hm

/-- The position that a graph's clock moves to: that of a mutation that is accepted. -/
def EventRecord.movesTo (record : EventRecord) (result : Except RecordError Bool) : List Dot :=
  match record.event, result with
  | .mutation _ _, .ok _ => [⟨record.opMeta.actor, record.opMeta.actorSeq⟩]
  | _, _ => []

theorem movesTo_error (record : EventRecord) (e : RecordError) : record.movesTo (.error e) = [] := by
  unfold EventRecord.movesTo
  cases record.event <;> rfl

theorem movesTo_subset (record : EventRecord) (result : Except RecordError Bool) :
    record.movesTo result ⊆ [⟨record.opMeta.actor, record.opMeta.actorSeq⟩] := by
  unfold EventRecord.movesTo
  split
  · exact List.Subset.refl _
  · exact nil_subset _

/-- Applying a record moves no clock but that of a mutation's graph, to the mutation. -/
theorem clocks_applyRecordLocked {n' : TopicNode} {record : EventRecord}
    {result : Except RecordError Bool} (h : applyRecordLocked env n topic record = (n', result)) :
    ClocksWithin n n' (record.movesTo result) := by
  unfold applyRecordLocked at h
  split at h
  · rename_i tombstone _
    simp only at h
    split at h
    · cases h
      exact .of_eq fun _ => rfl
    · cases h
      refine clocksWithin_setGraph (n := n) fun a m hm => ?_
      simp [GraphState.deleteGraphInner] at hm
      exact .inl (by omega)
  · rename_i graph tag _
    repeat' split at h
    all_goals cases h
    · exact .of_eq fun _ => rfl
    · exact .of_eq fun _ => rfl
    · exact .of_eq fun _ => rfl
    · exact .of_eq fun _ => rfl
    · exact clocksWithin_setGraph (n := n) fun a m hm => .inl hm
  · rename_i graph changes hevent
    split at h
    · cases h
      exact .of_eq fun _ => rfl
    split at h
    · cases h
      exact .of_eq fun _ => rfl
    rename_i batch hbatch
    rcases applyIroklePlan_cases env.ox (n.graphs graph) batch with ⟨_, heq⟩ | ⟨_, _, heq⟩ |
      ⟨_, _, p, _, heq⟩ | ⟨_, _, quads, _, heq⟩
    all_goals
      rw [heq] at h
      cases h
    · exact clocksWithin_setGraph fun a m hm => .inl hm
    · exact clocksWithin_setGraph fun a m hm => .inl hm
    · exact clocksWithin_setGraph fun a m hm => .inl hm
    · refine clocksWithin_setGraph fun a m hm => ?_
      rw [batchFromRecord_eq hbatch] at hm
      simp only [VectorClock.last_advance] at hm
      split at hm
      · rename_i hactor
        subst hactor
        rcases le_max_iff.mp hm with hold | hnew
        · exact .inl hold
        · refine .inr ⟨⟨record.opMeta.actor, record.opMeta.actorSeq⟩, ?_, rfl, hnew⟩
          simp [EventRecord.movesTo, hevent]
      · exact .inl hm

theorem clocks_applyReconciledRecord {n' : TopicNode} {record : EventRecord}
    {result : Except RecordError Bool}
    (h : applyReconciledRecord env n topic record = (n', result)) :
    ClocksWithin n n' (record.movesTo result) := by
  rcases applyReconciledRecord_cases env n topic record with ⟨e, heq⟩ | ⟨bound, _, hclock, heq⟩
  · rw [h] at heq
    cases heq
    exact .of_eq fun _ => rfl
  · have hsame : ClocksWithin n bound [] := .of_eq hclock
    exact hsame.trans (clocks_applyRecordLocked (heq.symm.trans h))

theorem clocks_reconcileRecord {pass next : TopicPass} {r : TopicRecord}
    (h : pass.stalled = none) (hnext : reconcileRecord env topic pass r = next) :
    ClocksWithin pass.node next.node (if next.stalled.isSome then [] else [r.dot]) := by
  have hsame : ClocksWithin pass.node pass.node [r.dot] := .of_eq fun _ => rfl
  unfold reconcileRecord at hnext
  rw [h] at hnext
  simp only [Option.isSome_none, Bool.false_eq_true, if_false] at hnext
  cases r with
  | control m | rejected id m kind reason =>
    subst hnext
    exact hsame
  | event record =>
    simp only at hnext
    split at hnext
    · rename_i n applied happly
      subst hnext
      exact (clocks_applyReconciledRecord happly).mono (movesTo_subset record _)
    rename_i n e happly
    have hclocks := clocks_applyReconciledRecord happly
    rw [movesTo_error] at hclocks
    split at hnext
    · subst hnext
      exact hclocks.trans (.of_eq fun _ => rfl)
    · subst hnext
      exact hclocks

theorem clocks_foldl {pass : TopicPass} (h : pass.stalled = none) (rs : List TopicRecord) :
    ClocksWithin pass.node (rs.foldl (reconcileRecord env topic) pass).node
      ((consumedOf env topic pass rs).map TopicRecord.dot) := by
  induction rs generalizing pass with
  | nil => exact .of_eq fun _ => rfl
  | cons r rs ih =>
    have hstep := @clocks_reconcileRecord env topic pass _ r h rfl
    rw [foldl_cons]
    rcases reconcileRecord_cases h r with ⟨hnext, -⟩ | ⟨hnext, -⟩
    · rw [consumedOf_cons rs hnext]
      rw [hnext] at hstep
      exact hstep.trans (ih hnext)
    · rw [foldl_reconcileRecord_stalled hnext, consumedOf_cons_stalled rs hnext]
      rwa [if_pos hnext] at hstep

theorem clocks_reconcilePage {b : TopicBranch} {limits : PageLimits} {frontier : VectorClock}
    {node : TopicNode} {stored : Option TopicCursor} {out : PageOutcome}
    (h : reconcilePage env limits topic b frontier node stored = .ok out) :
    ClocksWithin node out.node out.consumed := by
  unfold reconcilePage at h
  split at h
  · cases h
  rename_i page _
  split at h
  · cases h
  cases h
  have hfold := @clocks_foldl env topic ⟨node, page.cursor.clock, [], none⟩ rfl page.records
  dsimp only
  split
  · exact hfold
  · exact hfold

/-! ## Runs -/

/-- Whether a record carries changes, and a dot with them. -/
def EventRecord.isMutation (record : EventRecord) : Bool :=
  match record.event with
  | .mutation _ _ => true
  | _ => false

/-- A node and one topic: the branch that Irokle has now, and the own records that were settled, with
their genesis. `own` has the own records of the genesis that the own entries of the clocks belong
to, as they were when the topic last had this genesis. -/
structure FenceRun where
  node : TopicNode
  stored : Option TopicCursor
  branch : TopicBranch
  frontier : VectorClock
  own : Nat → TopicRecord
  settled : List (OpId × TopicRecord)

namespace FenceRun

variable (env : TopicEnv) (topic : TopicId) (s : FenceRun)

/-- The own record of a sequence on the branch. -/
def ownRecord (n : Nat) : TopicRecord := s.branch.record ⟨env.localActor topic, n⟩

/-- The genesis that the own entries of the clocks belong to. -/
def home : OpId := (s.stored.map TopicCursor.genesis).getD s.branch.genesis

/-- What `own_pending` answers. -/
def pending : Option Nat := ownWork env s.node topic s.branch s.frontier s.stored

/-- A mutation takes a dot and waits for every own record. Policies, deletions and changes of the
members take none, and only a fenced topic refuses them. -/
def refuses (record : TopicRecord) : Bool :=
  match record with
  | .event record =>
    if record.isMutation then (s.pending env topic).isSome else s.pending env topic = some 0
  | _ => s.pending env topic = some 0

def publish : Except UpdateError FenceRun :=
  let next := s.frontier.last (env.localActor topic) + 1
  if s.refuses env topic (s.ownRecord env topic next) then .error .ownPending
  else .ok { s with frontier := s.frontier.advance (env.localActor topic) next }

/-- Apply an own record after publishing it. A mutation is left to reconciliation when another own
record has to go first. -/
def applyOwn (n : Nat) : FenceRun :=
  match s.ownRecord env topic n with
  | .event record =>
    if record.isMutation && (s.pending env topic).any (· ≠ n) then s
    else
      match applyRecordLocked env s.node topic record with
      | (node, .ok _) =>
        { s with node := node, settled := (s.branch.genesis, s.ownRecord env topic n) :: s.settled }
      | (node, .error _) => { s with node := node }
  | _ => s

/-- The own records of some positions, which are settled now. -/
def settle (ds : List Dot) : List (OpId × TopicRecord) :=
  (ds.filter (·.actor = env.localActor topic)).map (fun d => (s.branch.genesis, s.branch.record d)) ++
    s.settled

def afterRound (out : PageOutcome) : FenceRun :=
  { s with node := out.node, stored := out.stored, settled := s.settle env topic out.consumed }

/-- After a round that ended before its cursor was stored. -/
def afterTornRound (out : PageOutcome) : FenceRun :=
  { s with node := out.node, settled := s.settle env topic out.consumed }

/-- The cursor starts anew, if it may. -/
def restart : FenceRun :=
  { s with stored := s.stored.map fun c =>
      (s.branch.restartCursor s.frontier (env.localActor topic) c).getD c }

/-- The topic has other operations, another epoch, genesis or frontier. -/
def replace (branch : TopicBranch) (frontier : VectorClock) : FenceRun :=
  let t := { s with branch := branch, frontier := frontier }
  if branch.genesis = t.home then { t with own := t.ownRecord env topic } else t

/-- A graph's clock or the stored cursor has an own sequence. -/
def Has (n : Nat) : Prop :=
  (∃ g, n ≤ (s.node.graphs g).clock.last (env.localActor topic)) ∨
    ∃ c ∈ s.stored, n ≤ c.clock.last (env.localActor topic)

end FenceRun

/-- What can happen: the topic changes in any way, the node publishes, applies what it published,
and reconciles; a round can end early, after some records. Other work moves no own entry of a
clock forward. -/
inductive FenceStep where
  | topic (branch : TopicBranch) (frontier : VectorClock)
  | publish
  | apply (sequence : Nat)
  | restart
  | page
  | torn (records : Nat)
  | work (node : TopicNode)

def fence (env : TopicEnv) (limits : PageLimits) (topic : TopicId) : System FenceRun FenceStep where
  init s := s.stored = none ∧ s.settled = [] ∧ s.own = s.ownRecord env topic ∧
    ∀ g, (s.node.graphs g).clock.last (env.localActor topic) = 0
  step
    | s, .topic branch frontier, s' => s' = s.replace env topic branch frontier
    | s, .publish, s' => s.publish env topic = .ok s'
    | s, .apply n, s' => 0 < n ∧ n ≤ s.frontier.last (env.localActor topic) ∧
        s.node.binding topic ≠ none ∧ s' = s.applyOwn env topic n
    | s, .restart, s' => s' = s.restart env topic
    | s, .page, s' => ∃ out, reconcilePage env limits topic s.branch s.frontier s.node s.stored =
        .ok out ∧ s' = s.afterRound env topic out
    | s, .torn records, s' => ∃ out, reconcilePage env { limits with records := records } topic
        s.branch s.frontier s.node s.stored = .ok out ∧ s' = s.afterTornRound env topic out
    | s, .work node, s' => s' = { s with node := node } ∧
        ∀ g, (node.graphs g).clock.last (env.localActor topic) ≤
          (s.node.graphs g).clock.last (env.localActor topic)

/-- The topic changes below the node, but the genesis is not replaced between the first own record
that a graph has and the first cursor that is stored, and an own sequence that a clock or the cursor
has stands for the same record as before whenever the topic has their genesis. -/
def FenceStep.KeepsOwn (env : TopicEnv) (topic : TopicId) (s : FenceRun) : FenceStep → Prop
  | .topic branch _ =>
    (branch.genesis = s.branch.genesis ∨ s.stored.isSome ∨
      ∀ g, (s.node.graphs g).clock.last (env.localActor topic) = 0) ∧
    (branch.genesis = s.home → ∀ n, 0 < n → s.Has env topic n →
      branch.record ⟨env.localActor topic, n⟩ = s.own n)
  | _ => True

/-! ## What is settled -/

/-- An own record is settled, if it is of concern to the store. -/
def Settled (settled : List (OpId × TopicRecord)) (genesis : OpId) (record : TopicRecord) : Prop :=
  record.isWork = true → (genesis, record) ∈ settled

structure FenceInvariant (env : TopicEnv) (topic : TopicId) (s : FenceRun) : Prop where
  settled : ∀ n, 0 < n → s.Has env topic n → Settled s.settled s.home (s.own n)
  here : s.branch.genesis = s.home → s.own = s.ownRecord env topic

section Runs

variable {limits : PageLimits} {s : FenceRun} {n : Nat} {graph : GraphId}

theorem Settled.mono {settled settled' : List (OpId × TopicRecord)} {genesis : OpId}
    {record : TopicRecord} (h : Settled settled genesis record) (hsub : settled ⊆ settled') :
    Settled settled' genesis record :=
  fun hwork => hsub (h hwork)

/-- **What `own_pending` says** of a bound topic when it does not fence it. -/
theorem ownWork_cases {n : TopicNode} {b : TopicBranch} {frontier : VectorClock}
    {stored : Option TopicCursor} (hbound : n.binding topic = some graph)
    (h : ownWork env n topic b frontier stored ≠ some 0) :
    (n.graphs graph).clock.last (env.localActor topic) ≤ frontier.last (env.localActor topic) ∧
      (∀ c ∈ stored, c.epoch = b.epoch ∧ c.genesis = b.genesis) ∧
      ∀ m, (ownWork env n topic b frontier stored).all (m < ·) →
        m ≤ frontier.last (env.localActor topic) →
        max ((n.graphs graph).clock.last (env.localActor topic))
          ((progressOf stored).last (env.localActor topic)) < m →
        (b.record ⟨env.localActor topic, m⟩).isWork = false := by
  unfold ownWork at h ⊢
  rw [hbound] at h ⊢
  simp only at h ⊢
  split at h
  · exact absurd rfl h
  rename_i hahead
  split at h
  · exact absurd rfl h
  rename_i hbranch
  rw [if_neg hahead, if_neg hbranch]
  refine ⟨not_lt.mp hahead, ?_, fun m hm hle hafter => ?_⟩
  · rintro c ⟨⟩
    simpa [not_or] using hbranch
  · cases hfirst : b.firstWork frontier (env.localActor topic) _ _ with
    | none => exact firstWork_eq_none (Nat.lt_succ_self _) hfirst m hafter hle
    | some first =>
      rw [hfirst] at hm
      exact (firstWork_eq_some hfirst).2.2 m hafter (by simpa using hm)

theorem home_eq (h : ∀ c ∈ s.stored, c.epoch = s.branch.epoch ∧ c.genesis = s.branch.genesis) :
    s.home = s.branch.genesis := by
  unfold FenceRun.home
  cases hs : s.stored with
  | none => rfl
  | some c => exact (h c hs).2

/-- On the branch of the clocks and the cursor, what they have is settled. -/
theorem settled_of_has (hs : FenceInvariant env topic s) (hhome : s.home = s.branch.genesis)
    (hpos : 0 < n) (hn : s.Has env topic n) :
    Settled s.settled s.branch.genesis (s.ownRecord env topic n) := by
  have h := hs.settled n hpos hn
  rwa [hs.here hhome.symm, hhome] at h

/-- What a cursor of the branch has consumed is settled. -/
theorem settled_of_progress (hs : FenceInvariant env topic s)
    (hbranch : ∀ c ∈ s.stored, c.epoch = s.branch.epoch ∧ c.genesis = s.branch.genesis) (hpos : 0 < n)
    (hn : n ≤ (progressOf s.stored).last (env.localActor topic)) :
    Settled s.settled s.branch.genesis (s.ownRecord env topic n) := by
  cases hstored : s.stored with
  | none =>
    rw [hstored] at hn
    simp [progressOf] at hn
    omega
  | some c =>
    rw [hstored] at hn
    exact settled_of_has hs (home_eq hbranch) hpos (.inr ⟨c, hstored, hn⟩)

/-- Up to the first record that `own_pending` names everything is settled. -/
theorem settled_of_pending (hs : FenceInvariant env topic s)
    (hbound : s.node.binding topic ≠ none) (hopen : s.pending env topic ≠ some 0) {m : Nat}
    (hpos : 0 < m) (hle : m ≤ s.frontier.last (env.localActor topic))
    (hm : (s.pending env topic).all (m < ·)) :
    Settled s.settled s.branch.genesis (s.ownRecord env topic m) := by
  obtain ⟨graph, hgraph⟩ := Option.ne_none_iff_exists'.mp hbound
  obtain ⟨-, hbranch, hnone⟩ := ownWork_cases hgraph hopen
  by_cases hafter : max ((s.node.graphs graph).clock.last (env.localActor topic))
      ((progressOf s.stored).last (env.localActor topic)) < m
  · intro hwork
    have hidle : (s.ownRecord env topic m).isWork = false := hnone m hm hle hafter
    exact absurd hwork (by rw [hidle]; simp)
  rcases le_max_iff.mp (not_lt.mp hafter) with hclock | hcursor
  · exact settled_of_has hs (home_eq hbranch) hpos (.inl ⟨graph, hclock⟩)
  · exact settled_of_progress hs hbranch hpos hcursor

/-! ### Steps -/

theorem fenceInvariant_init (h : (fence env limits topic).init s) : FenceInvariant env topic s := by
  obtain ⟨hstored, -, hown, hclocks⟩ := h
  refine ⟨fun n hpos hn => ?_, fun _ => hown⟩
  rcases hn with ⟨g, hle⟩ | ⟨c, hc, -⟩
  · rw [hclocks g] at hle
    omega
  · rw [hstored] at hc
    cases hc

/-- A change of the topic keeps the own entries with the genesis and the records they belong to. -/
theorem fenceInvariant_replace {branch : TopicBranch} {frontier : VectorClock}
    (hkeeps : (FenceStep.topic branch frontier).KeepsOwn env topic s)
    (hs : FenceInvariant env topic s) :
    FenceInvariant env topic (s.replace env topic branch frontier) := by
  obtain ⟨hgenesis, hrecords⟩ := hkeeps
  let t : FenceRun := { s with branch := branch, frontier := frontier }
  have hhas : ∀ n, 0 < n → s.Has env topic n → t.home = s.home := by
    intro n hpos hn
    cases hstored : s.stored with
    | some c => simp [t, FenceRun.home, hstored]
    | none =>
      rcases hgenesis with hsame | hsome | hzero
      · simp [t, FenceRun.home, hstored, hsame]
      · simp [hstored] at hsome
      · rcases hn with ⟨g, hle⟩ | ⟨c, hc, -⟩
        · rw [hzero g] at hle
          omega
        · rw [hstored] at hc
          cases hc
  unfold FenceRun.replace
  by_cases hhere : branch.genesis = t.home
  · rw [if_pos hhere]
    refine ⟨fun n hpos hn => ?_, fun _ => rfl⟩
    have hhome := hhas n hpos hn
    have hrecord : t.ownRecord env topic n = s.own n :=
      hrecords (hhere.trans hhome) n hpos hn
    show Settled s.settled t.home (t.ownRecord env topic n)
    rw [hrecord, hhome]
    exact hs.settled n hpos hn
  · rw [if_neg hhere]
    refine ⟨fun n hpos hn => ?_, fun hback => absurd hback hhere⟩
    show Settled s.settled t.home (s.own n)
    rw [hhas n hpos hn]
    exact hs.settled n hpos hn

theorem restartCursor_eq_some {b : TopicBranch} {frontier : VectorClock} {own : ActorId}
    {c c' : TopicCursor} (h : b.restartCursor frontier own c = some c') :
    c.genesis = b.genesis ∧ c.epoch ≠ b.epoch ∧ c.clock.last own ≤ frontier.last own ∧
      c' = ⟨b.epoch, b.genesis, .new, none⟩ := by
  unfold TopicBranch.restartCursor at h
  split at h
  · cases h
  rename_i hcond
  rw [not_or, not_or] at hcond
  obtain ⟨hgenesis, hepoch, hown⟩ := hcond
  exact ⟨not_not.mp hgenesis, hepoch, not_lt.mp hown, (Option.some.inj h).symm⟩

theorem fenceInvariant_restart (hs : FenceInvariant env topic s) :
    FenceInvariant env topic (s.restart env topic) := by
  -- the genesis is the same, so the clocks belong where they did
  have hkept : ∀ c, ((s.branch.restartCursor s.frontier (env.localActor topic) c).getD
      c).genesis = c.genesis ∧ ∀ n, 0 < n → n ≤ ((s.branch.restartCursor s.frontier
        (env.localActor topic) c).getD c).clock.last (env.localActor topic) →
          n ≤ c.clock.last (env.localActor topic) := by
    intro c
    cases hrestart : s.branch.restartCursor s.frontier (env.localActor topic) c with
    | none => exact ⟨rfl, fun _ _ hle => hle⟩
    | some c' =>
      obtain ⟨hgenesis, _, _, rfl⟩ := restartCursor_eq_some hrestart
      refine ⟨hgenesis.symm, fun n hpos hle => ?_⟩
      simp at hle
      omega
  have hhome : (s.restart env topic).home = s.home := by
    unfold FenceRun.home FenceRun.restart
    cases s.stored with
    | none => rfl
    | some c => exact (hkept c).1
  refine ⟨fun n hpos hn => hhome ▸ hs.settled n hpos ?_, fun hhere => hs.here (hhere.trans hhome)⟩
  rcases hn with hclock | ⟨d, hd, hle⟩
  · exact .inl hclock
  · obtain ⟨c, hc, rfl⟩ := Option.map_eq_some_iff.mp hd
    exact .inr ⟨c, hc, (hkept c).2 n hpos hle⟩

section Round

variable {out : PageOutcome} (hs : FenceInvariant env topic s)
  (h : PageConsumed s.branch limits s.frontier s.stored out)

include hs h

/-- Consuming records settles what the clocks and the new cursor have. -/
theorem settled_of_round (hpos : 0 < n)
    (hn : n ≤ ((progressOf s.stored).consume out.consumed).last (env.localActor topic)) :
    Settled (s.settle env topic out.consumed) s.branch.genesis (s.ownRecord env topic n) := by
  obtain ⟨rest, hleading, -⟩ := h.leading
  have hupTo := (consume_of_leading hleading.left).1
  have hmem : (⟨env.localActor topic, n⟩ : Dot) ∈
      ((progressOf s.stored).consume out.consumed).upTo := ⟨hpos, hn⟩
  rw [hupTo] at hmem
  rcases hmem with hold | hnew
  · exact (settled_of_progress hs h.branch hpos hold.2).mono (subset_append_right _ _)
  · intro _
    refine mem_append_left _ (mem_map.mpr ⟨⟨env.localActor topic, n⟩, ?_, rfl⟩)
    exact mem_filter.mpr ⟨hnew, by simp⟩

variable (hclocks : ClocksWithin s.node out.node out.consumed)
include hclocks

theorem settled_of_clocks {g : GraphId} (hpos : 0 < n)
    (hn : n ≤ (out.node.graphs g).clock.last (env.localActor topic)) :
    Settled (s.settle env topic out.consumed) s.branch.genesis (s.ownRecord env topic n) := by
  rcases hclocks g _ n hn with hold | ⟨d, hd, hactor, hle⟩
  · exact (settled_of_has hs (home_eq h.branch) hpos (.inl ⟨g, hold⟩)).mono
      (subset_append_right _ _)
  refine settled_of_round hs h hpos (hle.trans ?_)
  obtain ⟨rest, hleading, -⟩ := h.leading
  have hmem : d ∈ ((progressOf s.stored).consume out.consumed).upTo := by
    rw [(consume_of_leading hleading.left).1]
    exact .inr hd
  rw [← hactor]
  exact hmem.2

/-- A round keeps the invariant, whether its cursor was stored or not. -/
theorem fenceInvariant_ofRound {stored : Option TopicCursor}
    (hbranch : ∀ c ∈ stored, c.epoch = s.branch.epoch ∧ c.genesis = s.branch.genesis)
    (hcursor : ∀ c ∈ stored, ∀ n, 0 < n → n ≤ c.clock.last (env.localActor topic) →
      Settled (s.settle env topic out.consumed) s.branch.genesis (s.ownRecord env topic n)) :
    FenceInvariant env topic
      { s with node := out.node, stored := stored, settled := s.settle env topic out.consumed } := by
  have hown : s.own = s.ownRecord env topic := hs.here (home_eq h.branch).symm
  refine ⟨fun n hpos hn => ?_, fun _ => hown⟩
  rw [home_eq hbranch]
  show Settled _ s.branch.genesis (s.own n)
  rw [hown]
  rcases hn with ⟨g, hle⟩ | ⟨c, hc, hle⟩
  · exact settled_of_clocks hs h hclocks hpos hle
  · exact hcursor c hc n hpos hle

theorem fenceInvariant_afterRound : FenceInvariant env topic (s.afterRound env topic out) := by
  refine fenceInvariant_ofRound hs h hclocks ?_ fun c hc n hpos hle => settled_of_round hs h hpos ?_
  · rw [h.stored]
    split
    · exact h.branch
    · rintro c ⟨⟩
      exact ⟨rfl, rfl⟩
  rw [h.stored] at hc
  split at hc
  · rename_i hnil
    rw [hnil, hc]
    exact hle
  · cases hc
    exact hle

theorem fenceInvariant_afterTornRound :
    FenceInvariant env topic (s.afterTornRound env topic out) := by
  refine fenceInvariant_ofRound hs h hclocks h.branch fun c hc n hpos hle => ?_
  exact (settled_of_has hs (home_eq h.branch) hpos (.inr ⟨c, hc, hle⟩)).mono
    (subset_append_right _ _)

end Round

section

variable (hs : FenceInvariant env topic s)
include hs

theorem settled_of_own {m : Nat} (hbound : s.node.binding topic ≠ none) (hn : 0 < n)
    (hle : n ≤ s.frontier.last (env.localActor topic))
    (hpending : ¬ (s.pending env topic).any (· ≠ n) = true) (hpos : 0 < m) (hm : m ≤ n) :
    Settled ((s.branch.genesis, s.ownRecord env topic n) :: s.settled) s.home (s.own m) := by
  have hopen : s.pending env topic ≠ some 0 := by
    intro hzero
    rw [hzero] at hpending
    simp at hpending
    omega
  have hhome : s.home = s.branch.genesis := by
    obtain ⟨graph, hgraph⟩ := Option.ne_none_iff_exists'.mp hbound
    exact home_eq (ownWork_cases hgraph hopen).2.1
  rw [hhome, hs.here hhome.symm]
  rcases hm.lt_or_eq with hlt | rfl
  · have hall : (s.pending env topic).all (m < ·) = true := by
      cases hp : s.pending env topic with
      | none => rfl
      | some first =>
        rw [hp] at hpending
        simp at hpending
        simp only [Option.all_some, decide_eq_true_eq]
        omega
    exact (settled_of_pending hs hbound hopen hpos (by omega) hall).mono (subset_cons_self _ _)
  · exact fun _ => mem_cons_self

/-- A record that the node applies after publishing it: a mutation only when all own records
before it are settled. -/
theorem fenceInvariant_applyOwn (hpos : 0 < n)
    (hle : n ≤ s.frontier.last (env.localActor topic)) (hbound : s.node.binding topic ≠ none) :
    FenceInvariant env topic (s.applyOwn env topic n) := by
  unfold FenceRun.applyOwn
  split
  · rename_i record hrecord
    have hdot : (⟨record.opMeta.actor, record.opMeta.actorSeq⟩ : Dot) = ⟨env.localActor topic, n⟩ := by
      have hpositioned := s.branch.dot_record ⟨env.localActor topic, n⟩
      rw [FenceRun.ownRecord] at hrecord
      rwa [hrecord] at hpositioned
    split
    · exact hs
    rename_i hwaits
    split
    · rename_i node applied happly
      have hclocks := clocks_applyRecordLocked happly
      have hsub : s.settled ⊆ (s.branch.genesis, s.ownRecord env topic n) :: s.settled :=
        subset_cons_self _ _
      refine ⟨fun m hm hhas => ?_, hs.here⟩
      rcases hhas with ⟨g, hmle⟩ | hcursor
      · rcases hclocks g _ m hmle with hold | ⟨d, hd, -, hdle⟩
        · exact (hs.settled m hm (.inl ⟨g, hold⟩)).mono hsub
        -- a mutation moved the clock, so nothing else was pending before it
        have hd' := mem_singleton.mp (movesTo_subset record _ hd)
        rw [hd', hdot] at hdle
        have hmutation : record.isMutation = true := by
          unfold EventRecord.movesTo at hd
          unfold EventRecord.isMutation
          split at hd
          · rename_i hevent _
            rw [hevent]
          · cases hd
        rw [hmutation, Bool.true_and] at hwaits
        exact settled_of_own hs hbound hpos hle hwaits hm hdle
      · exact (hs.settled m hm (.inr hcursor)).mono hsub
    · rename_i node e happly
      have hclocks := clocks_applyRecordLocked happly
      rw [movesTo_error] at hclocks
      refine ⟨fun m hm hhas => hs.settled m hm (hhas.imp_left fun ⟨g, hmle⟩ => ?_), hs.here⟩
      rcases hclocks g _ m hmle with hold | ⟨d, hd, -⟩
      · exact ⟨g, hold⟩
      · cases hd
  · exact hs

theorem fenceInvariant_step {i : FenceStep} {s' : FenceRun} (hkeeps : i.KeepsOwn env topic s)
    (hstep : (fence env limits topic).step s i s') : FenceInvariant env topic s' := by
  cases i with
  | topic branch frontier =>
    obtain rfl := hstep
    exact fenceInvariant_replace hkeeps hs
  | publish =>
    have hpublish : s.publish env topic = .ok s' := hstep
    unfold FenceRun.publish at hpublish
    simp only at hpublish
    split at hpublish
    · cases hpublish
    · cases hpublish
      exact ⟨hs.settled, hs.here⟩
  | apply n =>
    obtain ⟨hpos, hle, hbound, rfl⟩ := hstep
    exact fenceInvariant_applyOwn hs hpos hle hbound
  | restart =>
    obtain rfl := hstep
    exact fenceInvariant_restart hs
  | page =>
    obtain ⟨out, hpage, rfl⟩ := hstep
    exact fenceInvariant_afterRound hs (reconcilePage_spec hpage) (clocks_reconcilePage hpage)
  | torn records =>
    obtain ⟨out, hpage, rfl⟩ := hstep
    exact fenceInvariant_afterTornRound hs (reconcilePage_spec hpage) (clocks_reconcilePage hpage)
  | work node =>
    obtain ⟨rfl, hclocks⟩ := hstep
    refine ⟨fun n hpos hn => hs.settled n hpos (hn.imp_left fun ⟨g, hle⟩ => ?_), hs.here⟩
    exact ⟨g, hle.trans (hclocks g)⟩

end

/-! ## The fence -/

theorem publish_of_fenced (h : s.pending env topic = some 0) :
    s.publish env topic = .error .ownPending := by
  have hrefuses : ∀ record, s.refuses env topic record = true := by
    intro record
    unfold FenceRun.refuses
    cases record with
    | event record =>
      simp only [h]
      split <;> rfl
    | control m => simp [h]
    | rejected id m kind reason => simp [h]
  unfold FenceRun.publish
  simp [hrefuses]

/-- A topic that has lost own records of the bound graph is fenced. -/
theorem pending_of_behind (hbound : s.node.binding topic = some graph)
    (h : s.frontier.last (env.localActor topic) <
      (s.node.graphs graph).clock.last (env.localActor topic)) :
    s.pending env topic = some 0 := by
  unfold FenceRun.pending ownWork
  rw [hbound]
  simp only [if_pos h]

theorem pending_of_foreign {c : TopicCursor}
    (hbound : s.node.binding topic = some graph) (hc : c ∈ s.stored)
    (h : c.epoch ≠ s.branch.epoch ∨ c.genesis ≠ s.branch.genesis) :
    s.pending env topic = some 0 := by
  by_contra hopen
  obtain ⟨hepoch, hgenesis⟩ := (ownWork_cases hbound hopen).2.1 c hc
  rcases h with h | h
  · exact h hepoch
  · exact h hgenesis

end Runs

/-- `own_pending` reports zero, and nothing is published. -/
def FenceRun.Shut (env : TopicEnv) (topic : TopicId) (s : FenceRun) : Prop :=
  s.pending env topic = some 0 ∧ s.publish env topic = .error .ownPending

/-- What the fence keeps in a state: nothing is pending only when everything is settled; a cursor
starts anew only on the same genesis and with all own records that it had consumed; and a topic
without own records that its graph has, or with a cursor of another branch, is shut, the former also
after the cursor has started anew. -/
structure Fenced (env : TopicEnv) (topic : TopicId) (s : FenceRun) : Prop where
  quiet : s.pending env topic = none → s.node.binding topic = none ∨
    ∀ n, 0 < n → n ≤ s.frontier.last (env.localActor topic) →
      Settled s.settled s.branch.genesis (s.ownRecord env topic n)
  restarts : ∀ c ∈ s.stored, ∀ c',
    s.branch.restartCursor s.frontier (env.localActor topic) c = some c' →
      c.genesis = s.branch.genesis ∧ c.epoch ≠ s.branch.epoch ∧
      c.clock.last (env.localActor topic) ≤ s.frontier.last (env.localActor topic) ∧
      c' = ⟨s.branch.epoch, s.branch.genesis, .new, none⟩
  behind : ∀ graph, s.node.binding topic = some graph →
    s.frontier.last (env.localActor topic) <
      (s.node.graphs graph).clock.last (env.localActor topic) →
    s.Shut env topic ∧ (s.restart env topic).Shut env topic
  foreign : ∀ graph, s.node.binding topic = some graph → ∀ c ∈ s.stored,
    c.epoch ≠ s.branch.epoch ∨ c.genesis ≠ s.branch.genesis → s.Shut env topic

/-- In every run that does not replace the genesis before the first cursor is stored, and in which
own sequences that a clock or the cursor has keep their records, whatever else becomes of the topic,
the fence holds in every state. -/
theorem own_sequence_fence {env : TopicEnv} {limits : PageLimits} {topic : TopicId} {s : FenceRun}
    (h : Reachable (fence env limits topic) (fun s i => i.KeepsOwn env topic s) s) :
    Fenced env topic s := by
  have hs : FenceInvariant env topic s :=
    h.invariant (fun _ => fenceInvariant_init) fun _ _ _ hs hkeeps hstep =>
      fenceInvariant_step hs hkeeps hstep
  have hshut : ∀ {t : FenceRun}, t.pending env topic = some 0 → t.Shut env topic :=
    fun hzero => ⟨hzero, publish_of_fenced hzero⟩
  refine ⟨fun hnone => ?_, fun c hc c' hrestart => restartCursor_eq_some hrestart,
    fun graph hbound hbehind => ⟨hshut (pending_of_behind hbound hbehind), hshut ?_⟩,
    fun graph hbound c hc hforeign => hshut (pending_of_foreign hbound hc hforeign)⟩
  · by_cases hbound : s.node.binding topic = none
    · exact .inl hbound
    · refine .inr fun n hpos hle => settled_of_pending hs hbound ?_ hpos hle ?_
      · rw [hnone]
        simp
      · rw [hnone]
        rfl
  · exact @pending_of_behind env topic (s.restart env topic) graph hbound hbehind

/-! ## Runs of a node whose actor is the second one -/

def secondActorEnv : TopicEnv := { sampleTopicEnv with localActor := fun _ => 2 }

/-- The operations of `separateWriters`, where the second actor has written a policy first. -/
def policyWriters : TopicBranch :=
  { separateWriters 1 with
    op := fun d => { (separateWriters 1).op d with payload := .event (.policy sampleGraph ⟨1, 2⟩) } }

def FenceStep.next (s : FenceRun) : FenceStep → FenceRun
  | .topic branch frontier => s.replace secondActorEnv 7 branch frontier
  | .publish => (s.publish secondActorEnv 7).toOption.getD s
  | .apply n =>
    if 0 < n ∧ n ≤ s.frontier.last 2 ∧ s.node.binding 7 ≠ none then s.applyOwn secondActorEnv 7 n
    else s
  | .restart => s.restart secondActorEnv 7
  | .page =>
    match reconcilePage secondActorEnv .topic 7 s.branch s.frontier s.node s.stored with
    | .ok out => s.afterRound secondActorEnv 7 out
    | .error _ => s
  | .torn _ | .work _ => s

theorem reachable_fenceNext {allowed : FenceRun → FenceStep → Prop} {s : FenceRun} (i : FenceStep)
    (hs : Reachable (fence secondActorEnv .topic 7) allowed s) (hi : allowed s i) :
    Reachable (fence secondActorEnv .topic 7) allowed (i.next s) := by
  cases i with
  | topic branch frontier | restart => exact .step _ hs hi rfl
  | publish =>
    simp only [FenceStep.next]
    cases hpublish : s.publish secondActorEnv 7 with
    | ok s' => exact .step _ hs hi hpublish
    | error e => exact hs
  | apply n =>
    simp only [FenceStep.next]
    split
    · rename_i hcond
      exact .step _ hs hi ⟨hcond.1, hcond.2.1, hcond.2.2, rfl⟩
    · exact hs
  | page =>
    simp only [FenceStep.next]
    split
    · rename_i out hpage
      exact .step _ hs hi ⟨out, hpage, rfl⟩
    · exact hs
  | torn records => exact hs
  | work node => exact hs

theorem reachable_fenceRun {s : FenceRun} (is : List FenceStep)
    (hs : Reachable (fence secondActorEnv .topic 7) anyStep s) :
    Reachable (fence secondActorEnv .topic 7) anyStep (is.foldl FenceStep.next s) := by
  induction is generalizing s with
  | nil => exact hs
  | cons i is ih => exact ih (reachable_fenceNext i hs trivial)

def boundRun (graph : GraphId) : FenceRun where
  node := TopicNode.empty.bindTopic graph 7
  stored := none
  branch := separateWriters 1
  frontier := .new
  own n := (separateWriters 1).record ⟨2, n⟩
  settled := []

theorem boundRun_init (graph : GraphId) :
    (fence secondActorEnv .topic 7).init (boundRun graph) := by
  refine ⟨rfl, rfl, rfl, fun g => ?_⟩
  have hclock : ((boundRun graph).node.graphs g).clock = .new := by
    unfold boundRun bindTopic setGraph
    by_cases hg : g = graph
    · subst hg
      simp [GraphState.createGraph, empty, GraphState.unknown]
    · simp [Function.update_of_ne hg, empty, GraphState.unknown]
  rw [hclock, VectorClock.last_new]

/-- The node publishes its first record and applies it. -/
def publishedRun : FenceRun := (FenceStep.apply 1).next (FenceStep.publish.next (boundRun sampleGraph))

theorem own_sequence_fence_published :
    publishedRun.pending secondActorEnv 7 = none ∧
      publishedRun.settled = [(0, (separateWriters 1).record ⟨2, 1⟩)] ∧
      publishedRun.frontier.last 2 = 1 ∧ Fenced secondActorEnv 7 publishedRun := by
  refine ⟨by decide +kernel, by decide +kernel, by decide +kernel, ?_⟩
  exact own_sequence_fence
    (reachable_fenceNext (.apply 1)
      (reachable_fenceNext .publish (.init (boundRun_init _)) trivial) trivial)

/-- The topic is bound to another graph than its record names. -/
def quarantinedRun : FenceRun :=
  [.topic (separateWriters 1) (VectorClock.new.advance 2 1), .page].foldl FenceStep.next
    (boundRun otherGraph)

/-- A record of the first actor is consumed, then the node publishes and applies one. The topic is
reset and comes back without the latter. -/
def lostRun : FenceRun :=
  [.topic (separateWriters 1) (VectorClock.new.advance 1 1), .page, .publish, .apply 1,
    .topic { separateWriters 1 with epoch := 2 } (VectorClock.new.advance 1 1)].foldl FenceStep.next
      (boundRun sampleGraph)

/-- After the node has published and applied a record, the topic is replaced by one that has
another first record of the node. -/
def replacedRun : FenceRun :=
  [.publish, .apply 1, .topic { policyWriters with genesis := 5 } (VectorClock.new.advance 2 1)].foldl
    FenceStep.next (boundRun sampleGraph)

/-- The node publishes a policy, which is lost before it is applied, so that its sequence is used
again for a mutation. Then the topic comes back with the policy. -/
def reusedRun : FenceRun :=
  [.topic policyWriters .new, .publish, .topic (separateWriters 1) .new, .publish, .apply 1,
    .topic policyWriters (VectorClock.new.advance 2 1)].foldl FenceStep.next (boundRun sampleGraph)

/-- Nothing is pending although the own record was rejected and its graph has not seen it. A cursor
starts anew although the topic has lost an own record that was applied. And with another genesis, or
after a sequence has been used again, nothing is pending although the own record of the topic was
never handed to the node. -/
theorem own_records_unapplied :
    (Reachable (fence secondActorEnv .topic 7) anyStep quarantinedRun ∧
      quarantinedRun.pending secondActorEnv 7 = none ∧
      quarantinedRun.frontier.last 2 = 1 ∧
      (quarantinedRun.node.graphs sampleGraph).clock.last 2 = 0) ∧
    (Reachable (fence secondActorEnv .topic 7) anyStep lostRun ∧
      (lostRun.node.graphs sampleGraph).clock.last 2 = 1 ∧ lostRun.frontier.last 2 = 0 ∧
      (lostRun.restart secondActorEnv 7).stored = some ⟨2, 0, .new, none⟩ ∧
      lostRun.stored = some ⟨1, 0, VectorClock.new.advance 1 1, none⟩) ∧
    ∀ s ∈ [replacedRun, reusedRun],
      Reachable (fence secondActorEnv .topic 7) anyStep s ∧
      s.pending secondActorEnv 7 = none ∧ s.frontier.last 2 = 1 ∧
      s.settled = [(0, (separateWriters 1).record ⟨2, 1⟩)] ∧
      (s.ownRecord secondActorEnv 7 1).isWork = true ∧
      s.ownRecord secondActorEnv 7 1 ≠ (separateWriters 1).record ⟨2, 1⟩ := by
  refine ⟨⟨reachable_fenceRun _ (.init (boundRun_init _)), ?_, ?_, ?_⟩,
    ⟨reachable_fenceRun _ (.init (boundRun_init _)), ?_, ?_, ?_, ?_⟩,
    forall_mem_cons.mpr ⟨⟨reachable_fenceRun _ (.init (boundRun_init _)), ?_, ?_, ?_, ?_, ?_⟩,
      forall_mem_singleton.mpr
        ⟨reachable_fenceRun _ (.init (boundRun_init _)), ?_, ?_, ?_, ?_, ?_⟩⟩⟩
  all_goals decide +kernel

end Craqle
