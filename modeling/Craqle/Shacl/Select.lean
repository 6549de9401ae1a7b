import Craqle.Lib.Traverse
import Craqle.Shacl.Targets

/-! # Incremental validation

After a change of the data graph only some shapes have to be evaluated again. The triples that a
shape reads are known from its path and its constraints (`analyze`): a change of one of them makes
its subject or its object a candidate, or concerns all targets of the shape, when the shape reads
triples of other nodes than its focus. Candidates are passed on to property shapes, and a shape with
a nested shape that may have changed is concerned as a whole (`selectMoves`).

The shapes that are concerned are evaluated on their targets, the others on the candidates that are
targets. The results of the report before the change are kept if they are about neither
(`validateIncremental`).
-/

namespace Craqle

open Std (ExtTreeSet)
open Saturate List Option

/-! ## Changes -/

/-- A change of the data graph: the triple is present afterwards, or it is not. -/
structure ChangedQuad where
  subject : TermId
  predicate : TermId
  object : TermId
  present : Bool
  deriving DecidableEq

def ChangedQuad.triple (c : ChangedQuad) : TermId × TermId × TermId :=
  (c.subject, c.predicate, c.object)

/-- The last change of each triple. -/
def changedQuadIds (changes : List ChangedQuad) : List ChangedQuad :=
  changes.foldl (fun states c => states.filter (fun d => d.triple ≠ c.triple) ++ [c]) []

def DataView.contains (view : DataView) (t : TermId × TermId × TermId) : Bool :=
  decide (t.2 ∈ view.scan t.1)

/-- The changes that change the graph. -/
def effectiveChanges (view : DataView) (changes : List ChangedQuad) : List ChangedQuad :=
  (changedQuadIds changes).filter fun c => view.contains c.triple != c.present

section Overlay

variable {β : Type} [DecidableEq β]

def deltaState (index : List ChangedQuad) (t : TermId × TermId × TermId) : Option Bool :=
  (index.find? fun c => c.triple = t).map ChangedQuad.present

/-- The stored rows of a cursor without the deleted ones, and then the inserted rows that it has not
given yet. A row stands for a triple, and a change of such a triple has a row. -/
def layOver (index : List ChangedQuad) (triple : β → TermId × TermId × TermId)
    (row : ChangedQuad → Option β) (stored : List β) : List β :=
  stored.filter (fun r => deltaState index (triple r) ≠ some false) ++
    index.filterMap fun c =>
      if c.present then (row c).filter (fun r => r ∉ stored) else none

variable {index : List ChangedQuad} {triple : β → TermId × TermId × TermId}
  {row : ChangedQuad → Option β} {stored : List β}

/-- The rows of an overlaid cursor: what the changes say, and otherwise what is stored. -/
theorem mem_layOver (hindex : (index.map ChangedQuad.triple).Nodup)
    (hrow : ∀ c r, row c = some r ↔ c.triple = triple r) {r : β} :
    r ∈ layOver index triple row stored ↔
      (deltaState index (triple r)).getD (decide (r ∈ stored)) = true := by
  have hadded : (∃ c ∈ index, (if c.present then (row c).filter (fun r => r ∉ stored) else none) =
      some r) ↔ ∃ c ∈ index, c.triple = triple r ∧ c.present = true ∧ r ∉ stored := by
    refine exists_congr fun c => and_congr_right fun _ => ?_
    rw [ite_none_right_eq_some, filter_eq_some_iff, hrow, decide_eq_true_iff]
    tauto
  rw [layOver, mem_append, mem_filter, mem_filterMap, hadded, decide_eq_true_iff, deltaState]
  cases hfind : index.find? fun c => c.triple = triple r with
  | none =>
    have hnone : ∀ c ∈ index, c.triple ≠ triple r := by
      simpa using find?_eq_none.mp hfind
    simp only [map_none, getD_none, decide_eq_true_iff]
    constructor
    · rintro (⟨hstored, -⟩ | ⟨c, hc, heq, -⟩)
      · exact hstored
      · exact absurd heq (hnone c hc)
    · exact fun hstored => .inl ⟨hstored, by simp⟩
  | some c =>
    have hc : c ∈ index := mem_of_find?_eq_some hfind
    have htriple : c.triple = triple r := by simpa using find?_some hfind
    have honly : ∀ d ∈ index, d.triple = triple r → d = c := fun d hd heq =>
      inj_on_of_nodup_map hindex hd hc (heq.trans htriple.symm)
    simp only [map_some, getD_some]
    cases hpresent : c.present with
    | true =>
      refine iff_of_true ?_ rfl
      by_cases hstored : r ∈ stored
      · exact .inl ⟨hstored, by simp⟩
      · exact .inr ⟨c, hc, htriple, hpresent, hstored⟩
    | false =>
      refine iff_of_false ?_ Bool.false_ne_true
      rintro (⟨-, hkept⟩ | ⟨d, hd, heq, hd', -⟩)
      · exact hkept rfl
      · rw [honly d hd heq, hpresent] at hd'
        cases hd'

theorem nodup_changedQuadIds (changes : List ChangedQuad) :
    ((changedQuadIds changes).map ChangedQuad.triple).Nodup := by
  refine foldlRecOn (motive := fun states : List ChangedQuad =>
    (states.map ChangedQuad.triple).Nodup) changes _ nodup_nil fun states h c _ => ?_
  rw [map_append, nodup_append]
  refine ⟨h.sublist (filter_sublist.map _), nodup_singleton _, ?_⟩
  rintro t ht _ hc rfl
  obtain ⟨d, hd, rfl⟩ := mem_map.mp ht
  have hne := (mem_filter.mp hd).2
  simp_all

theorem layOver_eq_self {view : DataView} {changes : List ChangedQuad}
    (hrow : ∀ c r, row c = some r ↔ c.triple = triple r)
    (hstored : ∀ r, view.contains (triple r) = true ↔ r ∈ stored)
    (h : ∀ c ∈ effectiveChanges view changes, row c = none) :
    layOver (changedQuadIds changes) triple row stored = stored := by
  have hsame : ∀ c ∈ changedQuadIds changes, ∀ r, c.triple = triple r →
      (c.present = true ↔ r ∈ stored) := by
    intro c hc r hr
    by_contra hdiff
    have heffective : c ∈ effectiveChanges view changes := by
      refine mem_filter.mpr ⟨hc, bne_iff_ne.mpr fun heq => hdiff ?_⟩
      rw [← heq, hr, hstored]
    exact absurd ((hrow c r).mpr hr) (by simp [h c heffective])
  have hkept : ∀ r ∈ stored, deltaState (changedQuadIds changes) (triple r) ≠ some false := by
    intro r hr hstate
    obtain ⟨c, hfind, hpresent⟩ := map_eq_some_iff.mp hstate
    have htriple : c.triple = triple r := by simpa using find?_some hfind
    have htrue := (hsame c (mem_of_find?_eq_some hfind) r htriple).mpr hr
    rw [htrue] at hpresent
    cases hpresent
  have hnone : (changedQuadIds changes).filterMap (fun c =>
      if c.present then (row c).filter (fun r => r ∉ stored) else none) = [] := by
    refine filterMap_eq_nil_iff.mpr fun c hc => ?_
    cases hr : row c with
    | none => simp
    | some r =>
      have hiff := hsame c hc r ((hrow c r).mp hr)
      by_cases hpresent : c.present = true
      · simp [hpresent, hiff.mp hpresent]
      · simp [hpresent]
  rw [layOver, hnone, append_nil]
  exact filter_eq_self.mpr fun r hr => by simpa using hkept r hr

end Overlay

/-! The rows of a change in the cursors of a view. -/

def ChangedQuad.scanRow (s : TermId) (c : ChangedQuad) : Option (TermId × TermId) :=
  if c.subject = s then some (c.predicate, c.object) else none

def ChangedQuad.forwardRow (s p : TermId) (c : ChangedQuad) : Option TermId :=
  if c.subject = s ∧ c.predicate = p then some c.object else none

def ChangedQuad.inverseRow (p o : TermId) (c : ChangedQuad) : Option TermId :=
  if c.predicate = p ∧ c.object = o then some c.subject else none

theorem scanRow_eq_some {s : TermId} (c : ChangedQuad) (r : TermId × TermId) :
    c.scanRow s = some r ↔ c.triple = (s, r) := by
  simp [ChangedQuad.scanRow, ChangedQuad.triple]

theorem forwardRow_eq_some {s p : TermId} (c : ChangedQuad) (o : TermId) :
    c.forwardRow s p = some o ↔ c.triple = (s, p, o) := by
  simp [ChangedQuad.forwardRow, ChangedQuad.triple, and_assoc]

theorem inverseRow_eq_some {p o : TermId} (c : ChangedQuad) (s : TermId) :
    c.inverseRow p o = some s ↔ c.triple = (s, p, o) := by
  simp only [ChangedQuad.inverseRow, ChangedQuad.triple, ite_none_right_eq_some,
    some.injEq, Prod.mk.injEq]
  tauto

/-- The graph after the changes, as the cursors show it before they are written. -/
def DataView.delta (view : DataView) (changes : List ChangedQuad) : DataView where
  rows := layOver (changedQuadIds changes) id (fun c => some c.triple) view.rows
  scan s := layOver (changedQuadIds changes) (fun r => (s, r)) (ChangedQuad.scanRow s)
    (view.scan s)
  forward s p := layOver (changedQuadIds changes) (fun o => (s, p, o)) (ChangedQuad.forwardRow s p)
    (view.forward s p)
  inverse p o := layOver (changedQuadIds changes) (fun s => (s, p, o)) (ChangedQuad.inverseRow p o)
    (view.inverse p o)
  mem_rows s p o := by
    have hrow : ∀ (c : ChangedQuad) r, some c.triple = some r ↔ c.triple = id r := fun c r =>
      Option.some_inj
    rw [mem_layOver (nodup_changedQuadIds changes) hrow,
      mem_layOver (nodup_changedQuadIds changes) scanRow_eq_some,
      decide_eq_decide.mpr (view.mem_rows s p o)]
    rfl
  mem_forward s p o := by
    rw [mem_layOver (nodup_changedQuadIds changes) forwardRow_eq_some,
      mem_layOver (nodup_changedQuadIds changes) scanRow_eq_some,
      decide_eq_decide.mpr (view.mem_forward s p o)]
  mem_inverse p o s := by
    rw [mem_layOver (nodup_changedQuadIds changes) inverseRow_eq_some,
      mem_layOver (nodup_changedQuadIds changes) scanRow_eq_some,
      decide_eq_decide.mpr (view.mem_inverse p o s)]

section Delta

variable {view : DataView} {changes : List ChangedQuad}

theorem delta_scan {s : TermId} (h : ∀ c ∈ effectiveChanges view changes, c.subject ≠ s) :
    (view.delta changes).scan s = view.scan s :=
  layOver_eq_self scanRow_eq_some (fun _ => decide_eq_true_iff) fun c hc => if_neg (h c hc)

theorem delta_forward {s p : TermId}
    (h : ∀ c ∈ effectiveChanges view changes, c.predicate = p → c.subject ≠ s) :
    (view.delta changes).forward s p = view.forward s p := by
  refine layOver_eq_self forwardRow_eq_some (fun o => ?_) fun c hc =>
    if_neg fun hrow => h c hc hrow.2 hrow.1
  rw [view.mem_forward]
  exact decide_eq_true_iff

theorem delta_inverse {p o : TermId}
    (h : ∀ c ∈ effectiveChanges view changes, c.predicate = p → c.object ≠ o) :
    (view.delta changes).inverse p o = view.inverse p o := by
  refine layOver_eq_self inverseRow_eq_some (fun s => ?_) fun c hc =>
    if_neg fun hrow => h c hc hrow.1 hrow.2
  rw [view.mem_inverse]
  exact decide_eq_true_iff

theorem mem_delta_scan {s p o : TermId}
    (h : ∀ c ∈ effectiveChanges view changes, c.triple ≠ (s, p, o)) :
    (p, o) ∈ (view.delta changes).scan s ↔ (p, o) ∈ view.scan s := by
  refine (mem_layOver (nodup_changedQuadIds changes) scanRow_eq_some).trans ?_
  rw [deltaState]
  cases hfind : (changedQuadIds changes).find? fun c => c.triple = (s, p, o) with
  | none => simp
  | some c =>
    have htriple : c.triple = (s, p, o) := by simpa using find?_some hfind
    have hsame : view.contains c.triple = c.present := by
      by_contra hne
      refine h c (mem_filter.mpr ⟨mem_of_find?_eq_some hfind, ?_⟩) htriple
      exact bne_iff_ne.mpr hne
    rw [map_some, getD_some, ← hsame, htriple]
    exact decide_eq_true_iff

end Delta

/-! ## What a shape reads -/

mutual

/-- The predicates of a path, each with the direction in which it is walked. -/
def collectPath : ResolvedPath → Bool → List (TermId × Bool)
  | .predicate p, inverted => [(p, inverted)]
  | .alternative paths, inverted => collectPaths paths inverted
  | .sequence paths, inverted => collectPaths paths inverted
  | .inverse path, inverted => collectPath path !inverted
  | .zeroOrMore path, inverted => collectPath path inverted
  | .oneOrMore path, inverted => collectPath path inverted
  | .zeroOrOne path, inverted => collectPath path inverted

def collectPaths : List ResolvedPath → Bool → List (TermId × Bool)
  | [], _ => []
  | path :: paths, inverted => collectPath path inverted ++ collectPaths paths inverted

end

mutual

/-- The flag that `collect_path` sets for selection. -/
def ResolvedPath.isTransitive : ResolvedPath → Bool
  | .predicate _ => false
  | .alternative paths => ResolvedPath.anyTransitive paths
  | .sequence paths => ResolvedPath.anyTransitive paths
  | .inverse path => path.isTransitive
  | .zeroOrMore _ => true
  | .oneOrMore _ => true
  | .zeroOrOne path => path.isTransitive

def ResolvedPath.anyTransitive : List ResolvedPath → Bool
  | [] => false
  | path :: paths => path.isTransitive || ResolvedPath.anyTransitive paths

end

/-- A path that only reads triples of the focus. -/
def ResolvedPath.isLocal : ResolvedPath → Bool
  | .predicate _ => true
  | .inverse (.predicate _) => true
  | _ => false

/-- The predicates that a target declaration reads. -/
def ResolvedTarget.reads : ResolvedTarget → List (TermId × Bool)
  | .subjectsOf p => [(p, false)]
  | .objectsOf p => [(p, true)]
  | _ => []

def ResolvedTarget.readsRdfType : ResolvedTarget → Bool
  | .class _ | .implicitClass _ => true
  | _ => false

/-- The predicates of the focus that a constraint reads. -/
def ResolvedConstraint.reads : ResolvedConstraint → List (TermId × Bool)
  | .equals p | .disjoint p | .lessThan p | .lessOrEqual p => [(p, false)]
  | _ => []

def ResolvedConstraint.readsRdfType : ResolvedConstraint → Bool
  | .class _ => true
  | _ => false

def ResolvedConstraint.readsAllOutgoing : ResolvedConstraint → Bool
  | .closed _ => true
  | _ => false

def ResolvedConstraint.nestedShapes : ResolvedConstraint → List ShapeId
  | .qualifiedValueShape shape _ _ _ siblings => shape :: siblings
  | constraint => constraint.nested

structure ShapeDependencies where
  forwardPredicates : List TermId
  inversePredicates : List TermId
  nestedShapes : List ShapeId
  readsRdfType : Bool
  readsAllPredicates : Bool
  hasTransitivePath : Bool
  requiresGlobalWork : Bool

def analyze (shape : CompiledShape) : ShapeDependencies :=
  let reads := shape.targets.flatMap ResolvedTarget.reads ++
    shape.path.toList.flatMap (collectPath · false) ++
    shape.constraints.flatMap ResolvedConstraint.reads
  let nestedShapes := shape.constraints.flatMap ResolvedConstraint.nestedShapes
  { forwardPredicates := (reads.filter fun r => !r.2).map Prod.fst
    inversePredicates := (reads.filter fun r => r.2).map Prod.fst
    nestedShapes
    readsRdfType := shape.targets.any ResolvedTarget.readsRdfType ||
      shape.constraints.any ResolvedConstraint.readsRdfType
    readsAllPredicates := shape.constraints.any ResolvedConstraint.readsAllOutgoing
    hasTransitivePath := shape.path.any ResolvedPath.isTransitive
    requiresGlobalWork := shape.path.any (fun path => !path.isLocal) || !nestedShapes.isEmpty }

/-! ## Candidates -/

section Select

variable (data : ShaclData) (schema : ResolvedSchema)

/-- The candidates that a change makes for a shape. -/
def touched (shape : CompiledShape) (c : ChangedQuad) : List TermId :=
  let deps := analyze shape
  (if c.predicate ∈ deps.forwardPredicates then [c.subject] else []) ++
    (if c.predicate ∈ deps.inversePredicates then [c.object] else []) ++
    (if deps.readsAllPredicates then [c.subject] else []) ++
    if deps.readsRdfType && c.predicate == data.rdfType then [c.subject] else []

/-- A change concerns all targets of a shape. -/
def concerns (shape : CompiledShape) (c : ChangedQuad) : Bool :=
  let deps := analyze shape
  (deps.readsRdfType && c.predicate == data.rdfType && shape.path.isSome) ||
    (!(touched data shape c).isEmpty && (deps.requiresGlobalWork || deps.hasTransitivePath))

/-- The candidates of each shape, and the shapes of which all targets are concerned. -/
structure Marks where
  candidates : ShapeId → NodeSet
  isGlobal : ShapeId → Bool

def Marks.changed (marks : Marks) (id : ShapeId) : Bool :=
  marks.isGlobal id || !(marks.candidates id).isEmpty

def initialMarks (changes : List ChangedQuad) : Marks where
  candidates id := ExtTreeSet.ofList (changes.flatMap (touched data (schema.shape id))) compare
  isGlobal id := changes.any (concerns data (schema.shape id))

def nestedChanged (changed : ShapeId → Bool) (nested : ShapeId) : Bool :=
  Traverse.findTaken (fun id => (schema.shape id).propertyShapes) changed
    ((schema.shapes.flatMap CompiledShape.propertyShapes).length + 1) [nested]
    (∅ : ExtTreeSet ShapeId compare)

def nestedParent (changed : ShapeId → Bool) (id : ShapeId) : Bool :=
  let shape := schema.shape id
  let chain := shape.kind == .property && !shape.propertyShapes.isEmpty
  (analyze shape).nestedShapes.any (nestedChanged schema changed) ||
    (chain && nestedChanged schema changed id)

/-- The property shapes of a node shape have its candidates. -/
def passCandidates (parent property : ShapeId) : Move Marks := fun marks =>
  let grown := extendAt marks.candidates property (marks.candidates parent)
  ({ marks with candidates := grown.1 }, grown.2)

def passGlobal (parent property : ShapeId) : Move Marks := fun marks =>
  if marks.isGlobal parent && !marks.isGlobal property then
    ({ marks with isGlobal := (flagAt marks.isGlobal property).1 }, true)
  else (marks, false)

def raiseParent (id : ShapeId) : Move Marks := fun marks =>
  if nestedParent schema marks.changed id && !marks.isGlobal id then
    ({ marks with isGlobal := (flagAt marks.isGlobal id).1 }, true)
  else (marks, false)

def selectMoves : List (Move Marks) :=
  (List.range schema.shapes.length).flatMap fun id =>
    ((schema.shape id).propertyShapes.flatMap fun property =>
      (if (schema.shape id).kind = .node then [passCandidates id property] else []) ++
        [passGlobal id property]) ++
      [raiseParent schema id]

/-- The nodes that can become candidates. -/
def touchedNodes (changes : List ChangedQuad) : NodeSet :=
  ExtTreeSet.ofList (changes.flatMap fun c => [c.subject, c.object]) compare

def finalMarks (changes : List ChangedQuad) : Marks :=
  saturate (selectMoves schema)
    (schema.shapes.length * (touchedNodes changes).size + schema.shapes.length + 1)
    (initialMarks data schema changes)

/-! ## Selected targets -/

def isTarget (focus : TermId) : ResolvedTarget → Bool
  | .node n => n == focus
  | .class c | .implicitClass c => data.view.contains (focus, data.rdfType, c)
  | .subjectsOf p => !(data.view.forward focus p).isEmpty
  | .objectsOf p => !(data.view.inverse p focus).isEmpty

def propertyShapeParents (id : ShapeId) : List ShapeId :=
  (List.range schema.shapes.length).filter fun parent =>
    (schema.shape parent).kind == .node && decide (id ∈ (schema.shape parent).propertyShapes)

/-- A node is a target of a shape or of a shape that lists it. The shapes on the way are not visited
again. -/
def focusIsTarget (focus : TermId) : Nat → ShapeId → List ShapeId → Bool
  | 0, _, _ => false
  | fuel + 1, id, visiting =>
    if id ∈ visiting then false
    else (schema.shape id).targets.any (isTarget data focus) ||
      (propertyShapeParents schema id).any fun parent =>
        focusIsTarget focus fuel parent (id :: visiting)

structure IncrementalSelection where
  targets : ShapeId → NodeSet
  affectedPairs : List (String × TermId)
  replacedShapes : List String

def selectIncrementalTargets (changes : List ChangedQuad) : IncrementalSelection :=
  let marks := finalMarks data schema changes
  let targets : ShapeId → NodeSet := fun id =>
    if marks.isGlobal id then resolveTargets data schema id
    else (marks.candidates id).filter fun focus =>
      focusIsTarget data schema focus (schema.shapes.length + 1) id []
  { targets
    affectedPairs := (List.range schema.shapes.length).flatMap fun id =>
      let affected :=
        if marks.isGlobal id then Walk.extend (marks.candidates id) (targets id)
        else marks.candidates id
      affected.toList.map fun focus => ((schema.shape id).label, focus)
    -- checks on the value nodes of a property shape are repeated in full when it is global
    replacedShapes := (List.range schema.shapes.length).flatMap fun id =>
      if (schema.shape id).kind = .property then
        ((schema.shape id).propertyShapes.filter marks.isGlobal).map fun property =>
          (schema.shape property).label
      else [] }

/-- A result of the report before the change that is still in the report after it. -/
def IncrementalSelection.keeps (selection : IncrementalSelection) (result : PendingResult) : Bool :=
  !selection.replacedShapes.contains result.sourceShape &&
    !selection.affectedPairs.contains (result.sourceShape, result.focus)

end Select

def enforceResultLimit (options : ShaclValidationOptions) (results : List PendingResult) :
    Except EvalError (List PendingResult) :=
  if options.maxResults < results.length then
    .error (.shacl (.resultLimitExceeded options.maxResults))
  else .ok results

/-- The report after the changes, from the report before them. The context has the changed graph. -/
def validateIncremental (ctx : EvalContext) (base : List PendingResult)
    (changes : List ChangedQuad) : Except EvalError (List PendingResult) :=
  let selection := selectIncrementalTargets ctx.data ctx.schema changes
  if selection.affectedPairs.isEmpty && selection.replacedShapes.isEmpty then
    enforceResultLimit ctx.options base
  else do
    let results ← validate ctx selection.targets
    enforceResultLimit ctx.options (results ++ base.filter selection.keeps)

end Craqle
