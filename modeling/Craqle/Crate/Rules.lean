import Craqle.Core.Batch
import Craqle.Lib.Traverse

/-! # The structural rules of a crate

Six rules say what a graph that is an RO-Crate must have: a root data entity, a metadata
descriptor, three properties of the root, one publication date, a type for every subject, and no
data entity that the root does not reach along `hasPart`. `checkPostState` checks a rule on a
snapshot of the whole graph.

What a rule means depends on the set of triples only (`RuleId.Holds`), and `checkPostState_iff` says
that the check decides it.
-/

namespace Craqle

open List Ordered
open Std (ExtTreeSet)

/-! ## Vocabulary -/

def rdfType : EncodedTerm :=
  .fromNamedNode "http://www.w3.org/1999/02/22-rdf-syntax-ns#type".toList
def schemaDataset : EncodedTerm := .fromNamedNode "http://schema.org/Dataset".toList
def schemaMediaObject : EncodedTerm := .fromNamedNode "http://schema.org/MediaObject".toList
def schemaCreativeWork : EncodedTerm := .fromNamedNode "http://schema.org/CreativeWork".toList
def schemaHasPart : EncodedTerm := .fromNamedNode "http://schema.org/hasPart".toList
def schemaAbout : EncodedTerm := .fromNamedNode "http://schema.org/about".toList
def schemaName : EncodedTerm := .fromNamedNode "http://schema.org/name".toList
def schemaDescription : EncodedTerm := .fromNamedNode "http://schema.org/description".toList
def schemaDatePublished : EncodedTerm := .fromNamedNode "http://schema.org/datePublished".toList
def metadataDescriptor : EncodedTerm := .fromNamedNode "ro-crate-metadata.json".toList
def dctermsConformsTo : EncodedTerm := .fromNamedNode "http://purl.org/dc/terms/conformsTo".toList

/-- Required root properties in reporting order. -/
def requiredRootProperties : Fin 3 → EncodedTerm × Text
  | 0 => (schemaName, "schema:name".toList)
  | 1 => (schemaDescription, "schema:description".toList)
  | 2 => (schemaDatePublished, "schema:datePublished".toList)

def datePublishedSlot : Fin 3 := 2

def graphRoot (graph : GraphId) : EncodedTerm := .fromNamedNode graph.iri

/-! ## Violations -/

structure CrateViolation where
  code : Text
  message : Text
  pointer : Text
  entityId : Option Text
  deriving DecidableEq

/-- The text of an IRI without its angle brackets, other texts as they are. -/
def violationEntityId (entityId : Text) : Text :=
  match entityId with
  | '<' :: rest => (stripSuffix '>' rest).getD entityId
  | _ => entityId

namespace CrateViolation

def missingRoot (pointer : Text) : CrateViolation where
  code := "missing_root_data_entity".toList
  message := "missing root data entity (<./> rdf:type schema:Dataset)".toList
  pointer := pointer
  entityId := none

def missingDescriptor (pointer : Text) : CrateViolation where
  code := "missing_metadata_descriptor".toList
  message := "missing metadata descriptor (ro-crate-metadata.json)".toList
  pointer := pointer
  entityId := some "ro-crate-metadata.json".toList

def missingProperty (entity property pointer : Text) : CrateViolation where
  code := "missing_required_property".toList
  message := "missing required property `".toList ++ property ++ "` on entity `".toList ++ entity ++
    "`".toList
  pointer := pointer
  entityId := some entity

def orphaned (entityId pointer : Text) : CrateViolation where
  code := "orphaned_data_entity".toList
  message := "orphaned data entity `".toList ++ violationEntityId entityId ++
    "` not reachable from root".toList
  pointer := pointer
  entityId := some (violationEntityId entityId)

def invalidDate (count : Nat) (pointer : Text) : CrateViolation where
  code := "invalid_date_published_cardinality".toList
  message := "datePublished must have exactly one value, found ".toList ++ (toString count).toList
  pointer := pointer
  entityId := none

def missingType (entityId pointer : Text) : CrateViolation where
  code := "entity_missing_type".toList
  message := "entity `".toList ++ violationEntityId entityId ++ "` is missing rdf:type".toList
  pointer := pointer
  entityId := some (violationEntityId entityId)

end CrateViolation

/-! ## Snapshots -/

/-- All triples of a graph, in the order in which they were read. -/
structure GraphSnapshot where
  graph : GraphId
  triples : List Triple

namespace GraphSnapshot

def root (s : GraphSnapshot) : EncodedTerm := graphRoot s.graph

def rowsFor (s : GraphSnapshot) (subject predicate : EncodedTerm) : List Triple :=
  s.triples.filter fun q => q.subject = subject ∧ q.predicate = predicate

def countSp (s : GraphSnapshot) (subject predicate : EncodedTerm) : Nat :=
  (s.rowsFor subject predicate).length

def hasTriple (s : GraphSnapshot) (q : Triple) : Bool :=
  (s.rowsFor q.subject q.predicate).any (·.object = q.object)

end GraphSnapshot

def adjacency (triples : List Triple) (subject : EncodedTerm) : List EncodedTerm :=
  (triples.filter fun q => q.predicate = schemaHasPart ∧ q.subject = subject).map (·.object)

/-- The ends of the `hasPart` rows that are not the root join the data entities. -/
def linkEntities (root : EncodedTerm) (entities : ExtTreeSet EncodedTerm compare) (q : Triple) :
    ExtTreeSet EncodedTerm compare :=
  if q.predicate = schemaHasPart then
    let entities := if q.subject ≠ root then entities.insert q.subject else entities
    if q.object ≠ root then entities.insert q.object else entities
  else entities

def dataEntities (s : GraphSnapshot) : ExtTreeSet EncodedTerm compare :=
  let typed := s.triples.filter fun q =>
    q.predicate = rdfType ∧ (q.object = schemaMediaObject ∨ q.object = schemaDataset) ∧
      q.subject ≠ s.root
  s.triples.foldl (linkEntities s.root) (ExtTreeSet.ofList (typed.map (·.subject)) compare)

/-- Data entities that a walk from the root does not reach. The walk marks a node for each of its
steps, so the number of rows bounds them. -/
def orphanedDataEntities (s : GraphSnapshot) : ExtTreeSet EncodedTerm compare :=
  let entities := dataEntities s
  if entities.isEmpty then ∅
  else
    let reachable := Traverse.markQueued (adjacency s.triples) (s.triples.length + 1) [s.root]
      ((∅ : ExtTreeSet EncodedTerm compare).insert s.root)
    entities.filter fun entity => !decide (entity ∈ reachable)

/-! ## The rules on a snapshot -/

namespace RootEntityRule

def checkPostState (post : GraphSnapshot) : Except CrateViolation Unit :=
  if post.hasTriple ⟨post.root, rdfType, schemaDataset⟩ = false then
    .error (.missingRoot [])
  else .ok ()

end RootEntityRule

namespace MetadataDescriptorRule

def checkPostState (post : GraphSnapshot) : Except CrateViolation Unit :=
  let hasType := post.hasTriple ⟨metadataDescriptor, rdfType, schemaCreativeWork⟩
  let hasAbout := post.hasTriple ⟨metadataDescriptor, schemaAbout, post.root⟩
  if hasType = false ∨ hasAbout = false then .error (.missingDescriptor [])
  else .ok ()

end MetadataDescriptorRule

namespace RequiredRootRule

def checkPostState (post : GraphSnapshot) : Except CrateViolation Unit :=
  (List.finRange 3).forM fun slot =>
    let (predicate, label) := requiredRootProperties slot
    if post.countSp post.root predicate < 1 then
      .error (.missingProperty post.graph.iri label [])
    else .ok ()

end RequiredRootRule

namespace PublishedCardinalityRule

def checkPostState (post : GraphSnapshot) : Except CrateViolation Unit :=
  let count := post.countSp post.root schemaDatePublished
  if count ≠ 1 then .error (.invalidDate count [])
  else .ok ()

end PublishedCardinalityRule

namespace EntityTypeRule

/-- The first row whose subject has no type. -/
def checkPostState (post : GraphSnapshot) : Except CrateViolation Unit :=
  let typed := (post.triples.filter (·.predicate = rdfType)).map (·.subject)
  match post.triples.find? fun q => q.subject ∉ typed with
  | some q => .error (.missingType q.subject.text [])
  | none => .ok ()

end EntityTypeRule

namespace ReachabilityRule

def checkPostState (post : GraphSnapshot) : Except CrateViolation Unit :=
  match (orphanedDataEntities post).toList.head? with
  | some entity => .error (.orphaned entity.text [])
  | none => .ok ()

end ReachabilityRule

inductive RuleId where
  | root
  | descriptor
  | requiredProperties
  | datePublished
  | entityType
  | reachability
  deriving DecidableEq

namespace RuleId

/-- The rules in the order of `default_rules`. -/
def all : List RuleId :=
  [.root, .descriptor, .requiredProperties, .datePublished, .entityType, .reachability]

theorem mem_all (rule : RuleId) : rule ∈ all := by
  cases rule <;> decide

def checkPostState : RuleId → GraphSnapshot → Except CrateViolation Unit
  | .root => RootEntityRule.checkPostState
  | .descriptor => MetadataDescriptorRule.checkPostState
  | .requiredProperties => RequiredRootRule.checkPostState
  | .datePublished => PublishedCardinalityRule.checkPostState
  | .entityType => EntityTypeRule.checkPostState
  | .reachability => ReachabilityRule.checkPostState

end RuleId

/-! ## What the rules mean -/

section Meaning

variable (root : EncodedTerm) (T : Set Triple)

/-- The triples say that one entity is a part of another. -/
def Part (whole part : EncodedTerm) : Prop := ⟨whole, schemaHasPart, part⟩ ∈ T

/-- An entity that has to be in the crate: typed as one, or at either end of a `hasPart`. -/
def DataEntity (e : EncodedTerm) : Prop :=
  e ≠ root ∧ (⟨e, rdfType, schemaDataset⟩ ∈ T ∨ ⟨e, rdfType, schemaMediaObject⟩ ∈ T ∨
    (∃ part, Part T e part) ∨ ∃ whole, Part T whole e)

def Orphan (e : EncodedTerm) : Prop :=
  DataEntity root T e ∧ ¬ Relation.ReflTransGen (Part T) root e

end Meaning

/-- What a rule asks of the triples of a graph. -/
def RuleId.Holds (graph : GraphId) (T : Set Triple) : RuleId → Prop
  | .root => ⟨graphRoot graph, rdfType, schemaDataset⟩ ∈ T
  | .descriptor => ⟨metadataDescriptor, rdfType, schemaCreativeWork⟩ ∈ T ∧
      ⟨metadataDescriptor, schemaAbout, graphRoot graph⟩ ∈ T
  | .requiredProperties =>
    ∀ slot, ∃ o, ⟨graphRoot graph, (requiredRootProperties slot).1, o⟩ ∈ T
  | .datePublished => ∃! o, ⟨graphRoot graph, schemaDatePublished, o⟩ ∈ T
  | .entityType => ∀ q ∈ T, ∃ o, ⟨q.subject, rdfType, o⟩ ∈ T
  | .reachability => ∀ e, ¬ Orphan (graphRoot graph) T e

/-! ## The checks decide the rules -/

variable {s : GraphSnapshot} {predicate subject : EncodedTerm}

theorem mem_rowsFor {q : Triple} :
    q ∈ s.rowsFor subject predicate ↔
      q ∈ s.triples ∧ q.subject = subject ∧ q.predicate = predicate := by
  simp [GraphSnapshot.rowsFor]

theorem hasTriple_iff {q : Triple} : s.hasTriple q = true ↔ q ∈ s.triples := by
  unfold GraphSnapshot.hasTriple
  rw [any_eq_true]
  constructor
  · rintro ⟨q', hq', hobject⟩
    obtain ⟨hmem, hsubject, hpredicate⟩ := mem_rowsFor.mp hq'
    have heq : q' = q := by
      cases q
      cases q'
      simp_all
    exact heq ▸ hmem
  · intro hq
    exact ⟨q, mem_rowsFor.mpr ⟨hq, rfl, rfl⟩, by simp⟩

theorem countSp_pos_iff :
    0 < s.countSp subject predicate ↔ ∃ o, ⟨subject, predicate, o⟩ ∈ s.triples := by
  unfold GraphSnapshot.countSp
  rw [length_pos_iff_exists_mem]
  constructor
  · rintro ⟨q, hq⟩
    obtain ⟨hmem, rfl, rfl⟩ := mem_rowsFor.mp hq
    exact ⟨q.object, hmem⟩
  · rintro ⟨o, ho⟩
    exact ⟨_, mem_rowsFor.mpr ⟨ho, rfl, rfl⟩⟩

theorem length_eq_one_iff {rows : List Triple} (hnodup : rows.Nodup)
    (hrows : ∀ q ∈ rows, q.subject = subject ∧ q.predicate = predicate) :
    rows.length = 1 ↔ ∃! o, ⟨subject, predicate, o⟩ ∈ rows := by
  have hshape : ∀ q ∈ rows, q = ⟨subject, predicate, q.object⟩ := by
    intro q hq
    obtain ⟨hsubject, hpredicate⟩ := hrows q hq
    cases q
    simp_all
  constructor
  · intro hone
    obtain ⟨q, rfl⟩ := List.length_eq_one_iff.mp hone
    have hq := hshape q List.mem_cons_self
    have hmem : (⟨subject, predicate, q.object⟩ : Triple) ∈ [q] := hq ▸ mem_cons_self
    refine ⟨q.object, hmem, ?_⟩
    intro o ho
    rw [mem_singleton] at ho
    rw [← ho]
  · rintro ⟨o, ho, hunique⟩
    have hall : ∀ q ∈ rows, q = ⟨subject, predicate, o⟩ := by
      intro q hq
      have hq' := hshape q hq
      rw [hq'] at hq
      rw [hq', hunique _ hq]
    have hrep : rows = replicate rows.length ⟨subject, predicate, o⟩ := eq_replicate_of_mem hall
    have hle : rows.length ≤ 1 := nodup_replicate.mp (hrep ▸ hnodup)
    have hpos : 0 < rows.length := length_pos_of_mem ho
    omega

theorem countSp_eq_one_iff (hnodup : s.triples.Nodup) :
    s.countSp subject predicate = 1 ↔ ∃! o, ⟨subject, predicate, o⟩ ∈ s.triples := by
  have hrows : (s.rowsFor subject predicate).Nodup := hnodup.filter _
  unfold GraphSnapshot.countSp
  rw [length_eq_one_iff hrows fun q hq => (mem_rowsFor.mp hq).2]
  refine existsUnique_congr fun o => ?_
  simp [mem_rowsFor]

variable {e : EncodedTerm}

/-- The ends of a link that are not the root join the entities. -/
theorem mem_linkEntities {root : EncodedTerm} (entities : ExtTreeSet EncodedTerm compare)
    (q : Triple) :
    e ∈ linkEntities root entities q ↔
      e ∈ entities ∨ (q.predicate = schemaHasPart ∧ e ≠ root ∧ (e = q.subject ∨ e = q.object)) := by
  unfold linkEntities
  by_cases hp : q.predicate = schemaHasPart
  · rw [if_pos hp, mem_ite_insert, mem_ite_insert, or_assoc]
    grind
  · simp [hp]

theorem mem_dataEntities :
    e ∈ dataEntities s ↔ DataEntity s.root {q | q ∈ s.triples} e := by
  unfold dataEntities
  dsimp only
  rw [Updates.foldl_iff_exists (P := (e ∈ ·)) mem_linkEntities, mem_ofList]
  unfold DataEntity Part
  simp only [mem_map, mem_filter, decide_eq_true_eq, Set.mem_ofPred_eq]
  constructor
  · rintro (⟨q, ⟨hq, htype, hclass, hroot⟩, rfl⟩ | ⟨q, hq, hpart, hroot, hend⟩)
    · refine ⟨hroot, ?_⟩
      obtain ⟨subject, predicate, object⟩ := q
      simp only at htype hclass
      subst htype
      rcases hclass with rfl | rfl
      · exact .inr (.inl hq)
      · exact .inl hq
    · refine ⟨hroot, .inr (.inr ?_)⟩
      obtain ⟨subject, predicate, object⟩ := q
      simp only at hpart hend
      subst hpart
      rcases hend with rfl | rfl
      · exact .inl ⟨object, hq⟩
      · exact .inr ⟨subject, hq⟩
  · rintro ⟨hroot, h | h | ⟨part, h⟩ | ⟨whole, h⟩⟩
    · exact .inl ⟨_, ⟨h, rfl, .inr rfl, hroot⟩, rfl⟩
    · exact .inl ⟨_, ⟨h, rfl, .inl rfl, hroot⟩, rfl⟩
    · exact .inr ⟨_, h, rfl, hroot, .inl rfl⟩
    · exact .inr ⟨_, h, rfl, hroot, .inr rfl⟩

theorem mem_adjacency {triples : List Triple} {whole part : EncodedTerm} :
    part ∈ adjacency triples whole ↔ Part {q | q ∈ triples} whole part := by
  unfold adjacency Part
  simp only [mem_map, mem_filter, decide_eq_true_eq, Set.mem_ofPred_eq]
  constructor
  · rintro ⟨⟨subject, predicate, object⟩, ⟨hq, hpart, rfl⟩, rfl⟩
    exact hpart ▸ hq
  · intro h
    exact ⟨_, ⟨h, rfl, rfl⟩, rfl⟩

/-- **The walk from the root finds exactly the orphans.** -/
theorem mem_orphanedDataEntities :
    e ∈ orphanedDataEntities s ↔ Orphan s.root {q | q ∈ s.triples} e := by
  have hpath : ∀ {x y}, Traverse.Reaches (adjacency s.triples) x y ↔
      Relation.ReflTransGen (Part {q | q ∈ s.triples}) x y := by
    intro x y
    have hedge : (fun x y => y ∈ adjacency s.triples x) = Part {q | q ∈ s.triples} := by
      funext x y
      exact propext mem_adjacency
    unfold Traverse.Reaches
    rw [hedge]
  have hwalk : ∀ e, e ∈ Traverse.markQueued (adjacency s.triples) (s.triples.length + 1) [s.root]
      ((∅ : ExtTreeSet EncodedTerm compare).insert s.root) ↔
      Relation.ReflTransGen (Part {q | q ∈ s.triples}) s.root e := by
    intro e
    -- only objects of rows are ever marked
    have hnodes : ∀ x, ∀ y ∈ adjacency s.triples x, y ∈ s.triples.map (·.object) := fun x y hy =>
      mem_map_of_mem (mem_adjacency.mp hy)
    rw [Traverse.mem_markQueued hnodes ?_ ?_ ?_]
    · constructor
      · rintro ⟨x, hx, hxe⟩
        have hx : x = s.root := mem_insert_empty.mp hx
        exact hpath.mp (hx ▸ hxe)
      · intro h
        exact ⟨s.root, by simp, hpath.mpr h⟩
    · intro x hx
      simp [mem_singleton.mp hx]
    · intro x hx
      have hx : x = s.root := mem_insert_empty.mp hx
      exact .inl (by simp [hx])
    · have hle := length_filter_le
        (fun x => decide (x ∉ (∅ : ExtTreeSet EncodedTerm compare).insert s.root))
        (s.triples.map (·.object))
      rw [length_map] at hle
      rw [length_singleton]
      omega
  unfold orphanedDataEntities Orphan
  dsimp only
  split
  · rename_i hempty
    have hnone : ∀ x, x ∉ dataEntities s := by
      intro x hx
      rw [ExtTreeSet.isEmpty_iff] at hempty
      rw [hempty] at hx
      simp at hx
    simp only [ExtTreeSet.not_mem_empty, false_iff, not_and]
    exact fun hentity => absurd (mem_dataEntities.mpr hentity) (hnone e)
  · rw [Ordered.mem_filter, mem_dataEntities]
    simp [hwalk]

theorem RootEntityRule.checkPostState_iff :
    checkPostState s = .ok () ↔ ⟨s.root, rdfType, schemaDataset⟩ ∈ s.triples := by
  unfold checkPostState
  rw [← hasTriple_iff]
  cases s.hasTriple ⟨s.root, rdfType, schemaDataset⟩ <;> simp

theorem MetadataDescriptorRule.checkPostState_iff :
    checkPostState s = .ok () ↔ ⟨metadataDescriptor, rdfType, schemaCreativeWork⟩ ∈ s.triples ∧
      ⟨metadataDescriptor, schemaAbout, s.root⟩ ∈ s.triples := by
  unfold checkPostState
  rw [← hasTriple_iff, ← hasTriple_iff]
  cases s.hasTriple ⟨metadataDescriptor, rdfType, schemaCreativeWork⟩ <;>
    cases s.hasTriple ⟨metadataDescriptor, schemaAbout, s.root⟩ <;> simp

theorem RequiredRootRule.checkPostState_iff :
    checkPostState s = .ok () ↔
      ∀ slot, ∃ o, ⟨s.root, (requiredRootProperties slot).1, o⟩ ∈ s.triples := by
  unfold checkPostState
  rw [Fallible.forM_eq_ok]
  simp only [mem_finRange, true_implies]
  refine forall_congr' fun slot => ?_
  rw [← countSp_pos_iff]
  split
  · exact iff_of_false (by simp) (by omega)
  · exact iff_of_true rfl (by omega)

theorem PublishedCardinalityRule.checkPostState_iff (hnodup : s.triples.Nodup) :
    checkPostState s = .ok () ↔ ∃! o, ⟨s.root, schemaDatePublished, o⟩ ∈ s.triples := by
  unfold checkPostState
  rw [← countSp_eq_one_iff hnodup]
  dsimp only
  split
  · rename_i hcount
    exact iff_of_false (by simp) hcount
  · rename_i hcount
    exact iff_of_true rfl (not_not.mp hcount)

theorem EntityTypeRule.checkPostState_iff :
    checkPostState s = .ok () ↔
      ∀ q ∈ s.triples, ∃ o, ⟨q.subject, rdfType, o⟩ ∈ s.triples := by
  have htyped : ∀ e, e ∈ (s.triples.filter (·.predicate = rdfType)).map (·.subject) ↔
      ∃ o, ⟨e, rdfType, o⟩ ∈ s.triples := by
    intro e
    simp only [mem_map, mem_filter, decide_eq_true_eq]
    constructor
    · rintro ⟨⟨subject, predicate, object⟩, ⟨hq, hpredicate⟩, rfl⟩
      exact ⟨object, hpredicate ▸ hq⟩
    · rintro ⟨o, ho⟩
      exact ⟨_, ⟨ho, rfl⟩, rfl⟩
  unfold checkPostState
  dsimp only
  split
  · rename_i q hfind
    refine iff_of_false (by simp) fun hall => ?_
    have huntyped := find?_some hfind
    exact (of_decide_eq_true huntyped) ((htyped _).mpr (hall q (mem_of_find?_eq_some hfind)))
  · rename_i hfind
    refine iff_of_true rfl fun q hq => (htyped _).mp ?_
    have hq := find?_eq_none.mp hfind q hq
    exact not_not.mp fun huntyped => hq (decide_eq_true huntyped)

theorem ReachabilityRule.checkPostState_iff :
    checkPostState s = .ok () ↔ ∀ e, ¬ Orphan s.root {q | q ∈ s.triples} e := by
  unfold checkPostState
  split
  · rename_i e hhead
    refine iff_of_false (by simp) fun hall => hall e (mem_orphanedDataEntities.mp ?_)
    exact ExtTreeSet.mem_toList.mp (mem_of_mem_head? hhead)
  rename_i hhead
  refine iff_of_true rfl fun e he => ?_
  have hmem : e ∈ (orphanedDataEntities s).toList :=
    ExtTreeSet.mem_toList.mpr (mem_orphanedDataEntities.mpr he)
  rw [head?_eq_none_iff.mp hhead] at hmem
  cases hmem

/-- **The check of a rule decides it**, on rows without repetition. -/
theorem RuleId.checkPostState_iff (hnodup : s.triples.Nodup) (rule : RuleId) :
    rule.checkPostState s = .ok () ↔ rule.Holds s.graph {q | q ∈ s.triples} := by
  cases rule with
  | root => exact RootEntityRule.checkPostState_iff
  | descriptor => exact MetadataDescriptorRule.checkPostState_iff
  | requiredProperties => exact RequiredRootRule.checkPostState_iff
  | datePublished => exact PublishedCardinalityRule.checkPostState_iff hnodup
  | entityType => exact EntityTypeRule.checkPostState_iff
  | reachability => exact ReachabilityRule.checkPostState_iff

end Craqle
