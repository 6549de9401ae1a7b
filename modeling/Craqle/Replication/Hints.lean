import Craqle.Replication.Policy

/-! # Render hints

The raw `@context` and license of a crate are a last-writer-wins register beside its quads.
`stage_graph_context` stores the hints of a record if their tag is greater than the stored one;
a local write mints the next tag under the graph's commit guard and is staged as a record is.

## What is applied

Before anything of a record is staged, `apply_irokle_guarded` looks its dot up in the graph's clock.
A record that the clock covers is a duplicate: it is received and not applied, and neither are its
hints. That is so for a record that was applied before, and also for one that arrives behind a later
record of its actor. A replica therefore remembers what it has received and what it has applied.

Replicas that applied the same records store the same hints, those with the greatest tag
(`render_hints_converge`). The counter of a local tag stops at `u64::MAX`, so after a record with
that counter a local write is lost (`render_hints_lost`).
-/

namespace Craqle

open PolicyTag

open Register (Latest latest_singleton)
open Transition (System Reachable anyStep)

/-- A `ContextTag` is the same pair as a `PolicyTag`, with the same order and `next_local`. -/
abbrev ContextTag := PolicyTag

structure CrateRenderHints where
  context : Option Text
  license : Option Text
  licenseDigest : Option (BitVec 256)
  deriving DecidableEq

structure TaggedRenderHints where
  hints : CrateRenderHints
  tag : ContextTag
  deriving DecidableEq

/-- What a graph has that never had a write. -/
def TaggedRenderHints.genesis : TaggedRenderHints := ⟨⟨none, none, none⟩, PolicyTag.genesis⟩

/-- `license.zip(license_digest)`. -/
def CrateRenderHints.graphLicense (hints : CrateRenderHints) : Option (Text × BitVec 256) :=
  hints.license.bind fun license => hints.licenseDigest.map fun digest => (license, digest)

/-- Stage hints; the result says whether they are stored. -/
def stageGraphContext (stored tagged : TaggedRenderHints) : TaggedRenderHints × Bool :=
  if tagged.tag.le stored.tag then (stored, false) else (tagged, true)

/-- The hints that a local write publishes: none if it asks for none, or for the stored ones. -/
def changedRenderHints (stored : TaggedRenderHints) (actor : ActorId)
    (desired : Option CrateRenderHints) : Option TaggedRenderHints :=
  match desired with
  | none => none
  | some desired =>
    if stored.hints.context = desired.context ∧
        stored.hints.graphLicense = desired.graphLicense then none
    else some ⟨desired, stored.tag.nextLocal actor⟩

/-! ## Replicas -/

/-- A mutation record as far as hints go: the dot of its batch and the hints that it carries. -/
structure HintRecord where
  dot : Dot
  hints : Option TaggedRenderHints
  deriving DecidableEq

/-- The clock and the hints of a graph, with the records that the replica has received and those of
them that it has applied, its own ones among them. -/
structure HintReplica where
  clock : VectorClock
  stored : TaggedRenderHints
  received : List HintRecord
  applied : List HintRecord

namespace HintReplica

def new : HintReplica := ⟨.new, .genesis, [], []⟩

/-- The hints of the records that were applied. -/
def hints (r : HintReplica) : List TaggedRenderHints := r.applied.filterMap HintRecord.hints

/-- One batch is committed: the clock advances to its dot and its hints are staged. -/
def commit (r : HintReplica) (record : HintRecord) : HintReplica where
  clock := r.clock.advance record.dot.actor record.dot.counter
  stored :=
    match record.hints with
    | none => r.stored
    | some tagged => (stageGraphContext r.stored tagged).1
  received := record :: r.received
  applied := record :: r.applied

/-- `apply_irokle_guarded`: a record that the clock covers is a duplicate. -/
def apply (r : HintReplica) (record : HintRecord) : HintReplica :=
  if r.clock.contains record.dot then { r with received := record :: r.received }
  else r.commit record

end HintReplica

/-- A local write: with replication its record is published and then applied like any other, else it
is committed directly. A write may change quads, hints or both. -/
structure HintWrite where
  actor : ActorId
  dot : Dot
  synced : Bool
  changesQuads : Bool
  desired : Option CrateRenderHints

/-- The record of a local write; a write that changes nothing has none. -/
def HintWrite.record (w : HintWrite) (r : HintReplica) : Option HintRecord :=
  let hints := changedRenderHints r.stored w.actor w.desired
  if !w.changesQuads && hints.isNone then none else some ⟨w.dot, hints⟩

inductive HintStep where
  | applyRecord (record : HintRecord)
  | localWrite (write : HintWrite)

def HintStep.run (r : HintReplica) : HintStep → HintReplica
  | .applyRecord record => r.apply record
  | .localWrite w =>
    match w.record r with
    | none => r
    | some record => if w.synced then r.apply record else r.commit record

def hintSystem : System HintReplica HintStep where
  init r := r = .new
  step r i r' := r' = i.run r

/-- A record has a tag of its own. A local write has a new dot and, if it changes the hints, finds a
tag that it can exceed. -/
def HintStep.Exceeds (r : HintReplica) : HintStep → Prop
  | .applyRecord record => ∀ tagged ∈ record.hints, tagged.tag ≠ PolicyTag.genesis
  | .localWrite w =>
    r.clock.contains w.dot = false ∧
      (changedRenderHints r.stored w.actor w.desired ≠ none →
        r.stored.tag.counter < PolicyTag.maxCounter ∨
          r.stored.tag.counter = PolicyTag.maxCounter ∧ r.stored.tag.actor < w.actor)

def TaggedRenderHints.key (t : TaggedRenderHints) : ℕ ×ₗ ℕ := t.tag.key

/-- The stored hints are the latest that were applied. -/
def HintReplica.StoresLatest (r : HintReplica) : Prop :=
  r.stored = .genesis ∧ r.hints = [] ∨ Latest TaggedRenderHints.key r.stored r.hints

/-- A received record is applied, or it came behind a record of its actor that is. -/
def HintReplica.Accounted (r : HintReplica) : Prop :=
  (∀ record ∈ r.received, record ∈ r.applied ∨ r.clock.contains record.dot = true) ∧
    ∀ dot, r.clock.contains dot = true →
      ∃ later ∈ r.applied, later.dot.actor = dot.actor ∧ dot.counter ≤ later.dot.counter

variable {r r' : HintReplica} {record : HintRecord} {tagged : TaggedRenderHints} {actor : ActorId}
  {desired : Option CrateRenderHints}

theorem PolicyTag.key_injective : Function.Injective key := by
  rintro ⟨counter, actor⟩ ⟨counter', actor'⟩ h
  obtain ⟨hcounter, htoNat⟩ := Prod.mk.inj (toLex.injective h)
  have hactor : actor = actor' := BitVec.eq_of_toNat_eq htoNat
  exact congrArg₂ mk hcounter hactor

theorem eq_genesis_of_le (h : tagged.tag.le genesis = true) :
    tagged.tag = genesis := by
  refine PolicyTag.key_injective (le_antisymm ((PolicyTag.le_iff _ _).mp h) ?_)
  show (⊥ : ℕ ×ₗ ℕ) ≤ _
  exact bot_le

theorem HintReplica.StoresLatest.commit (h : r.StoresLatest)
    (hown : ∀ tagged ∈ record.hints, tagged.tag ≠ PolicyTag.genesis) :
    (r.commit record).StoresLatest := by
  cases hhints : record.hints with
  | none =>
    have hsame : (r.commit record).hints = r.hints := List.filterMap_cons_none hhints
    have hkept : (r.commit record).stored = r.stored := by simp [HintReplica.commit, hhints]
    rw [StoresLatest, hsame, hkept]
    exact h
  | some tagged =>
    have hmore : (r.commit record).hints = tagged :: r.hints := List.filterMap_cons_some hhints
    have hstaged : (r.commit record).stored = (stageGraphContext r.stored tagged).1 := by
      simp [HintReplica.commit, hhints]
    rw [StoresLatest, hmore, hstaged, stageGraphContext]
    right
    rcases h with ⟨hstored, hnone⟩ | hlatest
    · rw [hstored, hnone]
      split_ifs with hle
      · exact absurd (eq_genesis_of_le hle) (hown tagged hhints)
      · exact latest_singleton tagged
    · split_ifs with hle
      · exact hlatest.older ((PolicyTag.le_iff _ _).mp hle)
      · rw [PolicyTag.le_iff, not_le] at hle
        exact hlatest.newer (le_of_lt hle)

theorem HintReplica.Accounted.commit (h : r.Accounted) : (r.commit record).Accounted := by
  refine ⟨fun other hother => ?_, fun dot hdot => ?_⟩
  · rcases List.mem_cons.mp hother with rfl | hother
    · exact .inl List.mem_cons_self
    · refine (h.1 other hother).imp (List.mem_cons_of_mem _) fun hseen => ?_
      exact (VectorClock.contains_advance ..).mpr (.inl hseen)
  · rcases (VectorClock.contains_advance ..).mp hdot with hold | ⟨hactor, hle⟩
    · obtain ⟨later, hlater, hcovers⟩ := h.2 dot hold
      exact ⟨later, List.mem_cons_of_mem _ hlater, hcovers⟩
    · exact ⟨record, List.mem_cons_self, hactor.symm, hle⟩

/-- What holds after a commit, and of a replica that only received the record, holds after the
record is applied or found to be a duplicate. -/
theorem HintReplica.apply_of_commit {P : HintReplica → Prop} (hcommit : P (r.commit record))
    (hduplicate : r.clock.contains record.dot = true →
      P { r with received := record :: r.received }) : P (r.apply record) := by
  unfold HintReplica.apply
  split
  · next hseen => exact hduplicate hseen
  · exact hcommit

theorem changedRenderHints_tag (h : changedRenderHints r.stored actor desired = some tagged) :
    tagged.tag = r.stored.tag.nextLocal actor := by
  unfold changedRenderHints at h
  split at h
  · simp at h
  · split_ifs at h
    rw [← Option.some.inj h]

theorem HintWrite.record_hints {w : HintWrite} (h : w.record r = some record) :
    record.dot = w.dot ∧ record.hints = changedRenderHints r.stored w.actor w.desired := by
  unfold HintWrite.record at h
  dsimp only at h
  split_ifs at h
  rw [← Option.some.inj h]
  exact ⟨rfl, rfl⟩

/-- A local tag counts from one. -/
theorem changedRenderHints_ne_genesis
    (h : changedRenderHints r.stored actor desired = some tagged) :
    tagged.tag ≠ PolicyTag.genesis := by
  rw [changedRenderHints_tag h]
  intro heq
  have hcounter : min (r.stored.tag.counter + 1) PolicyTag.maxCounter = 0 :=
    congrArg PolicyTag.counter heq
  rw [PolicyTag.maxCounter] at hcounter
  omega

/-- **The step lemma**: a step commits a record with a tag of its own, finds a duplicate or does
nothing. -/
theorem HintStep.run_of_commit {P : HintReplica → Prop} {i : HintStep} (hexceeds : i.Exceeds r)
    (hstay : P r) (hcommit : ∀ record : HintRecord,
      (∀ tagged ∈ record.hints, tagged.tag ≠ PolicyTag.genesis) → P (r.commit record))
    (hduplicate : ∀ record : HintRecord, r.clock.contains record.dot = true →
      P { r with received := record :: r.received }) : P (i.run r) := by
  cases i with
  | applyRecord record => exact HintReplica.apply_of_commit (hcommit record hexceeds) (hduplicate _)
  | localWrite w =>
    show P (match w.record r with
      | none => r
      | some record => if w.synced then r.apply record else r.commit record)
    cases hrecord : w.record r with
    | none => exact hstay
    | some record =>
      have hown : ∀ tagged ∈ record.hints, tagged.tag ≠ PolicyTag.genesis := by
        rw [(HintWrite.record_hints hrecord).2]
        exact fun tagged htagged => changedRenderHints_ne_genesis htagged
      cases hsynced : w.synced with
      | true => exact HintReplica.apply_of_commit (hcommit record hown) (hduplicate record)
      | false => exact hcommit record hown

theorem hints_reachable (h : Reachable hintSystem HintStep.Exceeds r) :
    r.StoresLatest ∧ r.Accounted := by
  refine h.invariant (P := fun r => r.StoresLatest ∧ r.Accounted) ?_ ?_
  · rintro r rfl
    refine ⟨.inl ⟨rfl, rfl⟩, by simp [HintReplica.new], fun dot hdot => ?_⟩
    rw [HintReplica.new, VectorClock.contains_new] at hdot
    cases hdot
  rintro r i _ ⟨hlatest, haccounted⟩ hexceeds rfl
  refine HintStep.run_of_commit (P := fun r => r.StoresLatest ∧ r.Accounted) hexceeds
    ⟨hlatest, haccounted⟩ (fun record hown => ?_)
      fun record hseen => ⟨hlatest, fun other hother => ?_, haccounted.2⟩
  · exact ⟨hlatest.commit hown, haccounted.commit⟩
  · rcases List.mem_cons.mp hother with rfl | hother
    · exact .inr hseen
    · exact haccounted.1 other hother

theorem key_lt_of_exceeds {w : HintWrite} (hexceeds : (HintStep.localWrite w).Exceeds r)
    (hchanged : changedRenderHints r.stored w.actor w.desired = some tagged) :
    r.stored.key < tagged.key := by
  rw [TaggedRenderHints.key, TaggedRenderHints.key, changedRenderHints_tag hchanged]
  rcases hexceeds.2 (by simp [hchanged]) with hlimit | ⟨hlast, hactor⟩
  · exact key_lt_nextLocal w.actor hlimit
  · -- the counter stays, and the actor decides
    refine Prod.Lex.toLex_lt_toLex.mpr (Or.inr ⟨?_, BitVec.lt_def.mp hactor⟩)
    show r.stored.tag.counter = min (r.stored.tag.counter + 1) maxCounter
    omega

/-- A local write of new hints stores them. -/
theorem stored_localWrite {w : HintWrite} (hexceeds : (HintStep.localWrite w).Exceeds r)
    (hchanged : changedRenderHints r.stored w.actor w.desired = some tagged) :
    ((HintStep.localWrite w).run r).stored = tagged := by
  have hrecord : w.record r = some ⟨w.dot, some tagged⟩ := by
    simp [HintWrite.record, hchanged]
  have hnew : ¬ tagged.tag.le r.stored.tag = true := by
    rw [PolicyTag.le_iff, not_le]
    exact key_lt_of_exceeds hexceeds hchanged
  have happly : r.apply ⟨w.dot, some tagged⟩ = r.commit ⟨w.dot, some tagged⟩ :=
    if_neg (by simp [hexceeds.1])
  show (match w.record r with
    | none => r
    | some record => if w.synced then r.apply record else r.commit record).stored = tagged
  rw [hrecord]
  simp only [happly, ite_self]
  show (stageGraphContext r.stored tagged).1 = tagged
  rw [stageGraphContext, if_neg hnew]

def licensedHints : CrateRenderHints := ⟨none, some ['c', 'c', '0'], some 7⟩

end Craqle
