import Craqle.Lib.Register
import Craqle.Lib.Transition
import Craqle.Replication.Topic

/-! # The policy register of a graph

A graph's policy is a last-writer-wins register: the stored policy has a tag, a replicated
policy is stored when its tag is greater, and a local write takes the next tag after the one it
has read. A graph that was deleted for good takes no policy any more.

A local write reads the stored tag in `persist_policy`, before `set_policy` takes the graph's
write guard, and `set_policy` stores without comparing tags. So the read and the write are two
steps here, with other writers in between. The register keeps the greatest tag in every run in
which that does not happen and counters stay below their limit (`policy_latest`); a replicated
policy that comes in between is overwritten by a smaller tag (`policy_overwritten`).

Receipts are left out, and so are the effects of publishing: a published policy comes back as a
replicated one, also after a crash before it was stored.
-/

namespace Craqle

open TopicNode

open Register (Latest)
open Transition (System Reachable anyStep)

/-! ## Policies and tags -/

structure GraphPolicy where
  isPublic : Bool
  permissionPaths : List Text
  deriving DecidableEq

namespace GraphPolicy

def default : GraphPolicy := ⟨false, []⟩

/-- Paths are sorted, and neighbours that are equal merged. -/
def normalized (p : GraphPolicy) : GraphPolicy :=
  { p with
    permissionPaths :=
      (p.permissionPaths.insertionSort fun a b => (compare a b).isLE).destutter (· ≠ ·) }

end GraphPolicy

/-- A graph policy together with its deterministic replicated-register tag. -/
structure TaggedGraphPolicy where
  policy : GraphPolicy
  tag : PolicyTag
  deriving DecidableEq

namespace PolicyTag

def maxCounter : Nat := 2 ^ 64 - 1

/-- The tag of a local write; the counter stops at the largest one. -/
def nextLocal (previous : PolicyTag) (actor : ActorId) : PolicyTag :=
  ⟨min (previous.counter + 1) maxCounter, actor⟩

def key (t : PolicyTag) : ℕ ×ₗ ℕ := toLex (t.counter, t.actor.toNat)

theorem le_iff (a b : PolicyTag) : a.le b = true ↔ a.key ≤ b.key := by
  rw [key, key, Prod.Lex.toLex_le_toLex]
  simp [le, BitVec.le_def]

/-- Below the limit a local tag is greater than the one it was made from. -/
theorem key_lt_nextLocal {previous : PolicyTag} (actor : ActorId)
    (hlimit : previous.counter < maxCounter) : previous.key < (previous.nextLocal actor).key := by
  have hcounter : previous.counter < (previous.nextLocal actor).counter := by
    show previous.counter < min (previous.counter + 1) maxCounter
    omega
  exact Prod.Lex.toLex_lt_toLex.mpr (Or.inl hcounter)

end PolicyTag

/-! ## The graph record -/

structure PolicyStore where
  record : Option TaggedGraphPolicy
  tombstone : Option GraphTombstone

namespace PolicyStore

def tagged (s : PolicyStore) : TaggedGraphPolicy := s.record.getD ⟨.default, .genesis⟩

def containsGraph (s : PolicyStore) : Bool := s.record.isSome

/-- Store a policy, whatever the stored tag is. -/
def setPolicyReceipt (s : PolicyStore) (tagged : TaggedGraphPolicy) : PolicyStore :=
  { s with record := some ⟨tagged.policy.normalized, tagged.tag⟩ }

/-- Any other write makes sure that there is a record. -/
def createGraph (s : PolicyStore) : PolicyStore := { s with record := some s.tagged }

def deleteGraph (s : PolicyStore) (tombstone : GraphTombstone) : PolicyStore :=
  if s.tombstone.isSome && !s.containsGraph then s
  else
    { record := none
      tombstone :=
        match s.tombstone with
        | some existing =>
          if tombstone.deleteEvent ≤ existing.deleteEvent then some existing else some tombstone
        | none => some tombstone }

end PolicyStore

/-! ## Local writes -/

/-- A local write that has read the stored policy. -/
structure PolicyWrite where
  previous : TaggedGraphPolicy
  policy : GraphPolicy
  deriving DecidableEq

def PolicyWrite.tagged (w : PolicyWrite) (actor : ActorId) : TaggedGraphPolicy :=
  ⟨w.policy, w.previous.tag.nextLocal actor⟩

/-- The first part of `persist_policy`; a policy that is stored already is not written. -/
def persistPolicy (s : PolicyStore) (policy : GraphPolicy) : Option PolicyWrite :=
  if s.containsGraph && s.tagged.policy = policy.normalized then none
  else some ⟨s.tagged, policy.normalized⟩

/-- The second part, under the write guard; the result says whether the policy was stored. -/
def setPolicy (s : PolicyStore) (tagged : TaggedGraphPolicy) :
    PolicyStore × Except UpdateError Bool :=
  match s.tombstone with
  | some tombstone => (s, .error (.graphDeleted tombstone))
  | none =>
    if s.containsGraph && s.tagged = tagged then (s, .ok false)
    else (s.setPolicyReceipt tagged, .ok true)

/-! ## Replicated policies -/

/-- A policy record: who signed it and what it asks for. -/
structure PolicyRecord where
  actor : ActorId
  tagged : TaggedGraphPolicy
  deriving DecidableEq

def applyPolicyRecord (s : PolicyStore) (record : PolicyRecord) : PolicyStore × Bool :=
  if record.tagged.tag.le s.tagged.tag then (s, false)
  else (s.setPolicyReceipt record.tagged, true)

def applyPolicyLocked (mayApply : ActorId → GraphPolicy → Bool) (localRecord : Bool)
    (s : PolicyStore) (record : PolicyRecord) : PolicyStore × Except RecordError Bool :=
  match s.tombstone with
  | some tombstone => (s, .error (.deleted tombstone))
  | none =>
    if record.tagged.tag.actor ≠ record.actor then (s, .error .policyActor)
    else if !localRecord && !mayApply record.tagged.tag.actor record.tagged.policy then
      (s, .error .policyUnauthorized)
    else ((applyPolicyRecord s record).1, .ok (applyPolicyRecord s record).2)

/-! ## Runs -/

/-- The node's own actor, and its answer to policies of remote ones. -/
structure PolicyEnv where
  actor : ActorId
  mayApply : ActorId → GraphPolicy → Bool

/-- The store, the local writes that have read it and not written yet, and the policies that
were accepted so far, which starts with the stored one. -/
structure PolicyRun where
  store : PolicyStore
  pending : List PolicyWrite
  accepted : List TaggedGraphPolicy

inductive PolicyStep where
  | read (policy : GraphPolicy)
  | write (w : PolicyWrite)
  /-- A local write ends without storing, or is lost in a crash. -/
  | abandon (w : PolicyWrite)
  | record (localRecord : Bool) (record : PolicyRecord)
  | delete (tombstone : GraphTombstone)
  /-- Another write to the graph creates its record. -/
  | create

def TaggedGraphPolicy.stored (t : TaggedGraphPolicy) : TaggedGraphPolicy :=
  ⟨t.policy.normalized, t.tag⟩

namespace PolicyStep

/-- Only writes in flight go on. -/
def Enabled (r : PolicyRun) : PolicyStep → Prop
  | .write w | .abandon w => w ∈ r.pending
  | _ => True

def run (env : PolicyEnv) (r : PolicyRun) : PolicyStep → PolicyRun
  | .read policy => { r with pending := (persistPolicy r.store policy).toList ++ r.pending }
  | .write w =>
    match setPolicy r.store (w.tagged env.actor) with
    | (store, .ok true) =>
      ⟨store, r.pending.erase w, (w.tagged env.actor).stored :: r.accepted⟩
    | (store, _) => { r with store := store, pending := r.pending.erase w }
  | .abandon w => { r with pending := r.pending.erase w }
  | .record localRecord received =>
    match applyPolicyLocked env.mayApply localRecord r.store received with
    | (store, .ok _) => { r with store := store, accepted := received.tagged.stored :: r.accepted }
    | (store, .error _) => { r with store := store }
  | .delete tombstone => { r with store := r.store.deleteGraph tombstone }
  | .create => { r with store := r.store.createGraph }

/-- The parts of local and replicated policy writes. -/
def writesPolicy : PolicyStep → Bool
  | .read _ | .write _ | .abandon _ | .record _ _ => true
  | .delete _ | .create => false

/-- **The condition on local writes**: when a live graph's policy is written, the stored tag still
is the one that the write has read, and its counter is below the limit. -/
def Undisturbed (r : PolicyRun) : PolicyStep → Prop
  | .write w => r.store.tombstone = none →
      r.store.tagged.tag = w.previous.tag ∧ w.previous.tag.counter < PolicyTag.maxCounter
  | _ => True

end PolicyStep

def policySystem (env : PolicyEnv) : System PolicyRun PolicyStep where
  init r := r.pending = [] ∧ r.accepted = [r.store.tagged]
  step r i r' := i.Enabled r ∧ r' = i.run env r

/-- What policies are compared by. -/
def TaggedGraphPolicy.key (t : TaggedGraphPolicy) : ℕ ×ₗ ℕ := t.tag.key

def StoresLatest (r : PolicyRun) : Prop :=
  r.store.tombstone = none → Latest TaggedGraphPolicy.key r.store.tagged r.accepted

variable {env : PolicyEnv} {r : PolicyRun}

theorem tagged_setPolicyReceipt (s : PolicyStore) (t : TaggedGraphPolicy) :
    (s.setPolicyReceipt t).tagged = t.stored := rfl

theorem tombstone_deleteGraph (s : PolicyStore) (t : GraphTombstone) :
    (s.deleteGraph t).tombstone ≠ none := by
  unfold PolicyStore.deleteGraph
  split
  · next hgone =>
    intro hnone
    simp [hnone] at hgone
  simp only
  split
  · split
    · simp
    · simp
  · simp

/-- An undisturbed write takes a greater tag than the stored one. -/
theorem key_lt_of_undisturbed {w : PolicyWrite} (hcond : (PolicyStep.write w).Undisturbed r)
    (hlive : r.store.tombstone = none) : r.store.tagged.key < (w.tagged env.actor).key := by
  obtain ⟨hread, hlimit⟩ := hcond hlive
  show r.store.tagged.tag.key < (w.previous.tag.nextLocal env.actor).key
  rw [hread]
  exact PolicyTag.key_lt_nextLocal env.actor hlimit

/-! ### One step -/

theorem storesLatest_write {w : PolicyWrite} (h : StoresLatest r)
    (hcond : (PolicyStep.write w).Undisturbed r) :
    StoresLatest ((PolicyStep.write w).run env r) := by
  cases htomb : r.store.tombstone with
  | some t =>
    -- a deleted graph takes nothing, and stays deleted
    intro hlive
    simp [PolicyStep.run, setPolicy, htomb] at hlive
  | none =>
    have hlt : r.store.tagged.key < (w.tagged env.actor).key := key_lt_of_undisturbed hcond htomb
    have hnew : r.store.tagged ≠ w.tagged env.actor := by
      intro heq
      rw [heq] at hlt
      exact lt_irrefl _ hlt
    have hrun : (PolicyStep.write w).run env r = ⟨r.store.setPolicyReceipt (w.tagged env.actor),
        r.pending.erase w, (w.tagged env.actor).stored :: r.accepted⟩ := by
      simp [PolicyStep.run, setPolicy, htomb, hnew]
    rw [hrun]
    intro _
    rw [tagged_setPolicyReceipt]
    exact (h htomb).newer (le_of_lt hlt)

theorem storesLatest_record {localRecord : Bool} {record : PolicyRecord} (h : StoresLatest r) :
    StoresLatest ((PolicyStep.record localRecord record).run env r) := by
  cases htomb : r.store.tombstone with
  | some t =>
    intro hlive
    simp [PolicyStep.run, applyPolicyLocked, htomb] at hlive
  | none =>
    simp only [PolicyStep.run, applyPolicyLocked, htomb]
    by_cases hactor : record.tagged.tag.actor ≠ record.actor
    · rw [if_pos hactor]
      exact h
    rw [if_neg hactor]
    split
    · next heq =>
      -- the authorizer lets the record pass: it is stored, or superseded already
      split at heq
      · simp at heq
      cases heq
      intro _
      have hlatest := h htomb
      unfold applyPolicyRecord
      by_cases hle : record.tagged.tag.le r.store.tagged.tag = true
      · rw [if_pos hle]
        exact hlatest.older ((PolicyTag.le_iff _ _).mp hle)
      · rw [if_neg hle]
        have hlt : r.store.tagged.tag.key < record.tagged.tag.key := by
          rw [PolicyTag.le_iff, not_le] at hle
          exact hle
        exact hlatest.newer (le_of_lt hlt)
    · next heq =>
      split at heq
      · cases heq
        exact h
      · simp at heq

/-- **Every undisturbed step keeps the latest policy stored.** -/
theorem storesLatest_step {i : PolicyStep} (h : StoresLatest r) (hcond : i.Undisturbed r) :
    StoresLatest (i.run env r) := by
  cases i with
  | read policy | abandon w | create => exact h
  | write w => exact storesLatest_write h hcond
  | record localRecord record => exact storesLatest_record h
  | delete t => exact fun hlive => absurd hlive (tombstone_deleteGraph r.store t)

/-- A policy write leaves a deleted graph as it is. -/
theorem store_of_tombstone {i : PolicyStep} (hwrites : i.writesPolicy = true)
    (hdead : r.store.tombstone ≠ none) : (i.run env r).store = r.store := by
  obtain ⟨t, ht⟩ := Option.ne_none_iff_exists'.mp hdead
  cases i with
  | read policy => rfl
  | write w => simp [PolicyStep.run, setPolicy, ht]
  | abandon w => rfl
  | record localRecord record => simp [PolicyStep.run, applyPolicyLocked, ht]
  | delete t | create => simp [PolicyStep.writesPolicy] at hwrites

/-! ### Every run -/

/-- **The policy register** in every run whose local writes are undisturbed: a live graph's
stored policy is a latest one of those accepted so far, a local write takes a tag greater than
the stored one, and no policy write changes a deleted graph. -/
theorem policy_latest (h : Reachable (policySystem env) (fun r i => i.Undisturbed r) r) :
    (r.store.tombstone = none → Latest TaggedGraphPolicy.key r.store.tagged r.accepted) ∧
    (∀ w, (PolicyStep.write w).Undisturbed r → r.store.tombstone = none →
      r.store.tagged.key < (w.tagged env.actor).key) ∧
    (∀ i : PolicyStep, i.writesPolicy = true → r.store.tombstone ≠ none →
      (i.run env r).store = r.store) := by
  refine ⟨?_, fun w hcond hlive => key_lt_of_undisturbed hcond hlive,
    fun i hwrites hdead => store_of_tombstone hwrites hdead⟩
  refine h.invariant (P := StoresLatest) (fun r hr _ => ?_) fun r i r' hr hcond hstep => ?_
  · rw [hr.2]
    exact Register.latest_singleton _
  · rw [hstep.2]
    exact storesLatest_step hr hcond

/-! ### Runs of one local and one remote writer -/

def policyEnv : PolicyEnv := ⟨9, fun _ _ => true⟩

/-- A graph without a record. -/
def freshPolicy : PolicyRun := ⟨⟨none, none⟩, [], [⟨.default, .genesis⟩]⟩

/-- A remote actor makes the graph public. -/
def publish (actor : ActorId) (counter : Nat) : PolicyStep :=
  .record false ⟨actor, ⟨true, []⟩, ⟨counter, actor⟩⟩

/-- The local node wants it hidden again. -/
def hide : PolicyStep := .read ⟨false, []⟩

theorem policy_latest_undisturbed :
    ∃ r, Reachable (policySystem policyEnv) (fun r i => i.Undisturbed r) r ∧
      r.store.tombstone = none ∧ r.store.tagged.tag = ⟨4, 9⟩ ∧ r.accepted.length = 3 ∧
      Latest TaggedGraphPolicy.key r.store.tagged r.accepted := by
  let received := (publish 5 3).run policyEnv freshPolicy
  let w : PolicyWrite := ⟨⟨⟨true, []⟩, ⟨3, 5⟩⟩, ⟨false, []⟩⟩
  have hreceived : Reachable (policySystem policyEnv) (fun r i => i.Undisturbed r) received :=
    .step (publish 5 3) (.init ⟨rfl, rfl⟩) trivial ⟨trivial, rfl⟩
  have hread := Reachable.step hide hreceived trivial ⟨trivial, rfl⟩
  have hwritten := Reachable.step (.write w) hread
    (fun _ => ⟨by decide +kernel, by decide +kernel⟩) ⟨List.mem_cons_self, rfl⟩
  exact ⟨_, hwritten, rfl, by decide +kernel, by decide +kernel, (policy_latest hwritten).1 rfl⟩

/-- A replicated policy between the read and the write of a local one is overwritten by a
smaller tag. At the largest counter a local write needs nobody in between for that. -/
theorem policy_overwritten :
    (∃ r, Reachable (policySystem policyEnv) anyStep r ∧ r.store.tombstone = none ∧
      r.store.tagged.tag = ⟨1, 9⟩ ∧ ∃ t ∈ r.accepted, t.tag = ⟨3, 5⟩) ∧
    (∃ r, Reachable (policySystem policyEnv) anyStep r ∧ r.store.tombstone = none ∧
      r.store.tagged.tag = ⟨PolicyTag.maxCounter, 9⟩ ∧
      ∃ t ∈ r.accepted, t.tag = ⟨PolicyTag.maxCounter, 12⟩) := by
  constructor
  · let w : PolicyWrite := ⟨⟨.default, .genesis⟩, ⟨false, []⟩⟩
    have hread : Reachable (policySystem policyEnv) anyStep (hide.run policyEnv freshPolicy) :=
      .step hide (.init ⟨rfl, rfl⟩) trivial ⟨trivial, rfl⟩
    have hreceived := Reachable.step (publish 5 3) hread trivial ⟨trivial, rfl⟩
    have hwritten := Reachable.step (.write w) hreceived trivial ⟨List.mem_cons_self, rfl⟩
    exact ⟨_, hwritten, rfl, by decide +kernel, by decide +kernel⟩
  · let w : PolicyWrite := ⟨⟨⟨true, []⟩, ⟨PolicyTag.maxCounter, 12⟩⟩, ⟨false, []⟩⟩
    have hreceived : Reachable (policySystem policyEnv) anyStep
        ((publish 12 PolicyTag.maxCounter).run policyEnv freshPolicy) :=
      .step (publish 12 PolicyTag.maxCounter) (.init ⟨rfl, rfl⟩) trivial ⟨trivial, rfl⟩
    have hread := Reachable.step hide hreceived trivial ⟨trivial, rfl⟩
    have hwritten := Reachable.step (.write w) hread trivial ⟨List.mem_cons_self, rfl⟩
    exact ⟨_, hwritten, rfl, by decide +kernel, by decide +kernel⟩

end Craqle
