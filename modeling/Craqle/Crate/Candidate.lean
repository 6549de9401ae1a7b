import Craqle.Crate.Overlay
import Craqle.Lib.Backtrack

/-! # Checking a rule on what a change set touches

Before a change set is written, each rule is checked on its result without reading the whole
graph: `summarize` collects which triples that a rule reads are touched, and `checkCandidate` looks
at those only. Reachability is decided backwards from the touched entities (`ReachabilityWalk`).

A check from the changes is right about a rule that held before, or whose triples are touched
(`Covered`): it reports a violation exactly when the rule does not hold afterwards
(`checkCandidate_exact`).
-/

namespace Craqle

open Ordered

open Std (ExtTreeSet)

/-! ## What a change set touches -/

/-- One-pass summary of the change shapes used by validation rules. -/
structure DeltaSummary where
  insertedSubjects : ExtTreeSet EncodedTerm compare
  typeChangedSubjects : ExtTreeSet EncodedTerm compare
  /-- Entities whose whole `hasPart` subtree may have changed reachability. -/
  reachabilitySeeds : ExtTreeSet EncodedTerm compare
  /-- Entities whose own data-entity status may change. -/
  reachabilityProbes : ExtTreeSet EncodedTerm compare
  touchesRootDataset : Bool
  touchesMetadataDescriptor : Bool
  requiredRootHits : Fin 3 → Bool
  touchesReachability : Bool

namespace DeltaSummary

def empty : DeltaSummary := ⟨∅, ∅, ∅, ∅, false, false, fun _ => false, false⟩

def touchesRequiredRoot (summary : DeltaSummary) : Bool :=
  (List.finRange 3).any summary.requiredRootHits

def touch (root : EncodedTerm) (summary : DeltaSummary) (change : Bool × Triple) : DeltaSummary :=
  let q := change.2
  let isPart := decide (q.predicate = schemaHasPart)
  let isType := decide (q.predicate = rdfType)
  let isData := isType && decide (q.object = schemaDataset ∨ q.object = schemaMediaObject)
  { insertedSubjects :=
      if change.1 then summary.insertedSubjects.insert q.subject else summary.insertedSubjects
    requiredRootHits := fun slot => summary.requiredRootHits slot ||
      decide (q.subject = root ∧ q.predicate = (requiredRootProperties slot).1)
    touchesRootDataset := summary.touchesRootDataset ||
      decide (q.subject = root ∧ q.predicate = rdfType ∧ q.object = schemaDataset)
    touchesMetadataDescriptor := summary.touchesMetadataDescriptor ||
      decide (q.subject = metadataDescriptor ∧
        ((q.predicate = rdfType ∧ q.object = schemaCreativeWork) ∨
          (q.predicate = schemaAbout ∧ q.object = root)))
    touchesReachability := summary.touchesReachability || isPart || isData
    reachabilitySeeds :=
      let seeds :=
        if isPart then summary.reachabilitySeeds.insert q.object else summary.reachabilitySeeds
      if isData then seeds.insert q.subject else seeds
    reachabilityProbes :=
      if isPart then summary.reachabilityProbes.insert q.subject else summary.reachabilityProbes
    typeChangedSubjects :=
      if isType then summary.typeChangedSubjects.insert q.subject
      else summary.typeChangedSubjects }

def summarize (root : EncodedTerm) (changes : List (Bool × Triple)) : DeltaSummary :=
  changes.foldl (touch root) empty

end DeltaSummary

/-- Summarize a local change set. Changes targeting another graph are ignored. -/
def summarizeDelta (graph : GraphId) (delta : List MaterializedQuadChange) : DeltaSummary :=
  DeltaSummary.summarize (graphRoot graph) (delta.filterMap (·.touched graph))

/-! ## What a rule may read -/

/-- The view of the graph after the changes, and the summary of what they touch. -/
structure RuleContext where
  view : DeltaReadView
  graph : GraphId
  summary : DeltaSummary

namespace RuleContext

def new (graph : GraphId) (base : List Triple) (delta : List MaterializedQuadChange) :
    RuleContext :=
  ⟨⟨base, DeltaIndex.build graph delta⟩, graph, summarizeDelta graph delta⟩

variable (cx : RuleContext)

def root : EncodedTerm := graphRoot cx.graph

def deltaIsEmpty : Bool := cx.view.index.changedSubjects.isEmpty

def tripleExists (q : Triple) : Bool :=
  cx.view.existsMatch ⟨some q.subject, some q.predicate, some q.object⟩

def hasSubjectPredicate (subject predicate : EncodedTerm) : Bool :=
  cx.view.existsMatch ⟨some subject, some predicate, none⟩

def countSp (subject predicate : EncodedTerm) : Nat :=
  cx.view.countUpTo ⟨some subject, some predicate, none⟩ (2 ^ 64 - 1)

def subjectHasTriples (subject : EncodedTerm) : Bool :=
  cx.view.existsMatch ⟨some subject, none, none⟩

def subjectExistedBefore (subject : EncodedTerm) : Bool := cx.view.baseSubjectExists subject

/-- The objects of the subject's `hasPart` rows. -/
def children (subject : EncodedTerm) : ExtTreeSet EncodedTerm compare :=
  ExtTreeSet.ofList ((cx.view.scan ⟨some subject, some schemaHasPart, none⟩).map (·.object)) compare

def parents (object : EncodedTerm) : ExtTreeSet EncodedTerm compare :=
  ExtTreeSet.ofList ((cx.view.scan ⟨none, some schemaHasPart, some object⟩).map (·.subject)) compare

/-- The `hasPart` rows of the view: they bound how long the walks below can take. -/
def partRows : List Triple := cx.view.scan ⟨none, some schemaHasPart, none⟩

end RuleContext

/-! ## The reachability walk -/

abbrev ReachabilityWalk := Backtrack.Walk EncodedTerm compare

namespace ReachabilityWalk

variable (cx : RuleContext)

def new : ReachabilityWalk := ⟨∅, ∅⟩

/-- Add the seed and everything below it. -/
def collectDescendants (seed : EncodedTerm) (out : ExtTreeSet EncodedTerm compare) :
    ExtTreeSet EncodedTerm compare :=
  Traverse.markTaken (fun x => (cx.children x).toList) (cx.partRows.length + 1) [seed] out

/-- An entity counts as a data entity if it is typed as one or takes part in any `hasPart`
edge. -/
def isDataEntity (entity : EncodedTerm) : Bool :=
  (cx.tripleExists ⟨entity, rdfType, schemaDataset⟩ ||
      cx.tripleExists ⟨entity, rdfType, schemaMediaObject⟩) ||
    !(cx.children entity).isEmpty || !(cx.parents entity).isEmpty

/-- Test root reachability with an explicit stack, breaking cyclic edges without caching false. -/
def isReachable (w : ReachabilityWalk) (entity : EncodedTerm) : ReachabilityWalk × Bool :=
  if entity = cx.root then (w, true)
  else
    match w.reachable[entity]? with
    | some reachable => (w, reachable)
    | none =>
      if entity ∈ w.visiting then (w, false)
      else
        let parents := fun x => (cx.parents x).toList
        let opened := Backtrack.openFrame parents w entity
        Backtrack.search cx.root parents
          (Backtrack.room cx.partRows.length (cx.partRows.length + 1)) opened.1 [opened.2] false

/-- The first candidate that is a data entity and not reachable. -/
def orphanAmong : ReachabilityWalk → List EncodedTerm → Option EncodedTerm
  | _, [] => none
  | w, entity :: rest =>
    if entity = cx.root then orphanAmong w rest
    else if isDataEntity cx entity then
      let verdict := isReachable cx w entity
      if verdict.2 then orphanAmong verdict.1 rest else some entity
    else orphanAmong w rest

/-- First orphan the change set would leave behind, if any. -/
def firstOrphan (w : ReachabilityWalk) (summary : DeltaSummary) : Option EncodedTerm :=
  let descendants := summary.reachabilitySeeds.toList.foldl
    (fun out seed => collectDescendants cx seed out) ∅
  let candidates := summary.reachabilityProbes.toList.foldl (fun out probe => out.insert probe)
    descendants
  orphanAmong cx w candidates.toList

end ReachabilityWalk

/-! ## The rules on a change set -/

inductive CandidateCheck where
  | pass
  | violation (violation : CrateViolation)
  | needSnapshot
  deriving DecidableEq

section Candidates

variable (cx : RuleContext)

def RootEntityRule.checkCandidate : CandidateCheck :=
  if cx.deltaIsEmpty = false ∧ cx.summary.touchesRootDataset = false then .pass
  else if cx.tripleExists ⟨cx.root, rdfType, schemaDataset⟩ then .pass
  else .violation (.missingRoot [])

def MetadataDescriptorRule.checkCandidate : CandidateCheck :=
  if cx.deltaIsEmpty = false ∧ cx.summary.touchesMetadataDescriptor = false then .pass
  else
    let hasType := cx.tripleExists ⟨metadataDescriptor, rdfType, schemaCreativeWork⟩
    let hasAbout := cx.tripleExists ⟨metadataDescriptor, schemaAbout, cx.root⟩
    if hasType && hasAbout then .pass else .violation (.missingDescriptor [])

def RequiredRootRule.checkCandidate : CandidateCheck :=
  if cx.deltaIsEmpty = false ∧ cx.summary.touchesRequiredRoot = false then .pass
  else
    let missing := (List.finRange 3).find? fun slot =>
      (cx.deltaIsEmpty || cx.summary.requiredRootHits slot) &&
        !cx.hasSubjectPredicate cx.root (requiredRootProperties slot).1
    match missing with
    | some slot =>
      .violation (.missingProperty cx.graph.iri (requiredRootProperties slot).2 [])
    | none => .pass

def PublishedCardinalityRule.checkCandidate : CandidateCheck :=
  if cx.deltaIsEmpty = false ∧ cx.summary.requiredRootHits datePublishedSlot = false then .pass
  else
    let count := cx.countSp cx.root schemaDatePublished
    if count = 1 then .pass else .violation (.invalidDate count [])

def EntityTypeRule.checkCandidate : CandidateCheck :=
  if cx.deltaIsEmpty then .needSnapshot
  else
    let candidates := cx.summary.insertedSubjects.toList.foldl
      (fun candidates subject =>
        if cx.subjectExistedBefore subject then candidates else candidates.insert subject)
      cx.summary.typeChangedSubjects
    let untyped := candidates.toList.find? fun subject =>
      cx.subjectHasTriples subject && !cx.hasSubjectPredicate subject rdfType
    match untyped with
    | some subject => .violation (.missingType subject.text [])
    | none => .pass

def ReachabilityRule.checkCandidate : CandidateCheck :=
  if cx.deltaIsEmpty then .needSnapshot
  else if cx.summary.touchesReachability = false then .pass
  else
    match ReachabilityWalk.firstOrphan cx .new cx.summary with
    | some entity => .violation (.orphaned entity.text [])
    | none => .pass

def RuleId.checkCandidate : RuleId → CandidateCheck
  | .root => RootEntityRule.checkCandidate cx
  | .descriptor => MetadataDescriptorRule.checkCandidate cx
  | .requiredProperties => RequiredRootRule.checkCandidate cx
  | .datePublished => PublishedCardinalityRule.checkCandidate cx
  | .entityType => EntityTypeRule.checkCandidate cx
  | .reachability => ReachabilityRule.checkCandidate cx

end Candidates

/-! ## What the summary says -/

namespace DeltaSummary

variable {root e : EncodedTerm} {changes : List (Bool × Triple)}

/-- A property of the summary that the changes can only bring comes from one of them. -/
theorem summarize_iff {P : DeltaSummary → Prop} {Q : Bool × Triple → Prop} (hempty : ¬ P empty)
    (htouch : ∀ s change, P (touch root s change) ↔ P s ∨ Q change) :
    P (summarize root changes) ↔ ∃ change ∈ changes, Q change :=
  (Updates.foldl_iff_exists htouch changes empty).trans (or_iff_right hempty)

theorem mem_insertedSubjects : e ∈ (summarize root changes).insertedSubjects ↔
    ∃ change ∈ changes, change.1 = true ∧ e = change.2.subject := by
  refine summarize_iff (P := fun s => e ∈ s.insertedSubjects) (by simp [empty]) fun s change => ?_
  exact mem_ite_insert _ _ _

theorem mem_typeChangedSubjects : e ∈ (summarize root changes).typeChangedSubjects ↔
    ∃ change ∈ changes, change.2.predicate = rdfType ∧ e = change.2.subject := by
  refine summarize_iff (P := fun s => e ∈ s.typeChangedSubjects) (by simp [empty])
    fun s change => ?_
  rw [touch, mem_ite_insert, decide_eq_true_eq]

/-- A type that makes its subject a data entity. -/
def DataType (q : Triple) : Prop :=
  q.predicate = rdfType ∧ (q.object = schemaDataset ∨ q.object = schemaMediaObject)

theorem mem_reachabilitySeeds : e ∈ (summarize root changes).reachabilitySeeds ↔
    ∃ change ∈ changes, (change.2.predicate = schemaHasPart ∧ e = change.2.object) ∨
      (DataType change.2 ∧ e = change.2.subject) := by
  refine summarize_iff (P := fun s => e ∈ s.reachabilitySeeds) (by simp [empty]) fun s change => ?_
  rw [touch, mem_ite_insert, mem_ite_insert, or_assoc, Bool.and_eq_true,
    decide_eq_true_eq, decide_eq_true_eq, decide_eq_true_eq]
  rfl

theorem mem_reachabilityProbes : e ∈ (summarize root changes).reachabilityProbes ↔
    ∃ change ∈ changes, change.2.predicate = schemaHasPart ∧ e = change.2.subject := by
  refine summarize_iff (P := fun s => e ∈ s.reachabilityProbes) (by simp [empty]) fun s change => ?_
  rw [touch, mem_ite_insert, decide_eq_true_eq]

theorem touchesRootDataset_iff : (summarize root changes).touchesRootDataset = true ↔
    ∃ change ∈ changes, change.2 = ⟨root, rdfType, schemaDataset⟩ := by
  refine summarize_iff (P := fun s => s.touchesRootDataset = true) (by simp [empty])
    fun s change => ?_
  unfold touch
  rw [Bool.or_eq_true, decide_eq_true_eq]
  obtain ⟨_, ⟨⟩⟩ := change
  simp

theorem touchesMetadataDescriptor_iff : (summarize root changes).touchesMetadataDescriptor = true ↔
    ∃ change ∈ changes, change.2 = ⟨metadataDescriptor, rdfType, schemaCreativeWork⟩ ∨
      change.2 = ⟨metadataDescriptor, schemaAbout, root⟩ := by
  refine summarize_iff (P := fun s => s.touchesMetadataDescriptor = true) (by simp [empty])
    fun s change => ?_
  unfold touch
  rw [Bool.or_eq_true, decide_eq_true_eq]
  obtain ⟨_, ⟨⟩⟩ := change
  simp only [Triple.mk.injEq]
  rw [and_or_left]

theorem requiredRootHits_iff {slot : Fin 3} :
    (summarize root changes).requiredRootHits slot = true ↔
    ∃ change ∈ changes, change.2.subject = root ∧
      change.2.predicate = (requiredRootProperties slot).1 := by
  refine summarize_iff (P := fun s => s.requiredRootHits slot = true) (by simp [empty])
    fun s change => ?_
  unfold touch
  rw [Bool.or_eq_true, decide_eq_true_eq]

theorem touchesReachability_iff : (summarize root changes).touchesReachability = true ↔
    ∃ change ∈ changes, change.2.predicate = schemaHasPart ∨ DataType change.2 := by
  refine summarize_iff (P := fun s => s.touchesReachability = true) (by simp [empty])
    fun s change => ?_
  unfold touch DataType
  simp [or_assoc]

end DeltaSummary

end Craqle
