import Craqle.Shacl.Path

/-! # The evaluation of SHACL shapes

A compiled schema is a list of shapes that refer to each other by position. The validator evaluates
a shape on a focus node, either to report every violation (`emit`), or only to find out whether the
focus conforms; the second kind of verdict is remembered, and a pair that is asked for while it is
being evaluated is an error. A shape that is part of another one is always evaluated in the second
way, except for the property shapes of a property shape.

The recursion of `evaluateShape` is not structural, it follows the references of the schema. The
model counts its nesting down from a given depth, with an error of its own at the end
(`EvalError.tooDeep`); that it is never met is a theorem about schemas without recursion.

The comparison of literals and the regular expressions come from libraries: they are functions that
the terms and the constraints bring along.
-/

namespace Craqle

open Std (ExtTreeSet)
open Stateful

/-! ## Terms -/

inductive TermKind where
  | iri
  | blankNode
  | literal
  deriving DecidableEq

/-- The value that a literal is compared by is parsed from its datatype, its language and its
lexical form, so it is no field of its own. -/
structure TermMeta where
  kind : TermKind
  datatype : Option TermId
  language : Option String
  lexical : Option String
  lexicalLength : Nat

/-- The data graph, and what is known of its terms. -/
structure ShaclData where
  view : DataView
  rdfType : TermId
  /-- Nothing for a quoted triple. -/
  termMeta : TermId → Option TermMeta
  partialCmp : TermMeta → TermMeta → Option Ordering

/-! ## Schemas -/

/-- The position of a shape in its schema. -/
abbrev ShapeId := Nat

inductive ShapeKind where
  | node
  | property
  deriving DecidableEq

inductive NodeKindPlan where
  | iri
  | literal
  | blankNode
  | blankOrIri
  | blankOrLiteral
  | iriOrLiteral
  deriving DecidableEq

inductive ResolvedTarget where
  | node (n : TermId)
  | class (c : TermId)
  | subjectsOf (p : TermId)
  | objectsOf (p : TermId)
  | implicitClass (c : TermId)
  deriving DecidableEq

inductive ResolvedConstraint where
  | class (c : TermId)
  | datatype (d : TermId)
  | nodeKind (k : NodeKindPlan)
  | minCount (minimum : Nat)
  | maxCount (maximum : Nat)
  | minExclusive (boundary : TermMeta)
  | maxExclusive (boundary : TermMeta)
  | minInclusive (boundary : TermMeta)
  | maxInclusive (boundary : TermMeta)
  | minLength (minimum : Nat)
  | maxLength (maximum : Nat)
  | pattern (isMatch : String → Bool)
  | uniqueLang (required : Bool)
  | languageIn (ranges : List String)
  | equals (p : TermId)
  | disjoint (p : TermId)
  | lessThan (p : TermId)
  | lessOrEqual (p : TermId)
  | or (shapes : List ShapeId)
  | and (shapes : List ShapeId)
  | not (shape : ShapeId)
  | xone (shapes : List ShapeId)
  | node (shape : ShapeId)
  | hasValue (expected : TermId)
  | in (allowed : NodeSet)
  | qualifiedValueShape (shape : ShapeId) (minCount maxCount : Option Nat) (disjoint : Bool)
      (siblings : List ShapeId)
  | closed (ignoredProperties : NodeSet)

def ResolvedConstraint.nested : ResolvedConstraint → List ShapeId
  | .or shapes | .and shapes | .xone shapes => shapes
  | .not shape | .node shape => [shape]
  | .qualifiedValueShape shape _ _ isDisjoint siblings =>
    shape :: if isDisjoint then siblings else []
  | _ => []

structure ShaclMessage where
  language : Option String
  text : String
  deriving DecidableEq

structure CompiledShape where
  label : String
  kind : ShapeKind
  targets : List ResolvedTarget
  path : Option ResolvedPath
  constraints : List ResolvedConstraint
  propertyShapes : List ShapeId
  severity : String
  messages : List ShaclMessage
  deactivated : Bool

/-- The shapes that the evaluation of a shape evaluates. -/
def CompiledShape.nested (shape : CompiledShape) : List ShapeId :=
  shape.propertyShapes ++ shape.constraints.flatMap ResolvedConstraint.nested

def CompiledShape.empty : CompiledShape where
  label := ""
  kind := .node
  targets := []
  path := none
  constraints := []
  propertyShapes := []
  severity := ""
  messages := []
  deactivated := false

/-- A schema, in which every reference is the position of a shape. Shapes are known by their labels,
and the property shapes are those with a path. -/
structure ResolvedSchema where
  shapes : List CompiledShape
  closed : ∀ shape ∈ shapes, ∀ id ∈ shape.nested, id < shapes.length
  labels : (shapes.map CompiledShape.label).Nodup
  kinds : ∀ shape ∈ shapes, shape.kind = .node ↔ shape.path.isNone = true

def ResolvedSchema.shape (schema : ResolvedSchema) (id : ShapeId) : CompiledShape :=
  schema.shapes.getD id .empty

/-- The evaluation of `a` evaluates `b`. -/
def ResolvedSchema.Nested (schema : ResolvedSchema) (a b : ShapeId) : Prop :=
  b ∈ (schema.shape a).nested

theorem ResolvedSchema.shape_mem_or (schema : ResolvedSchema) (id : ShapeId) :
    schema.shape id ∈ schema.shapes ∨ schema.shape id = .empty := by
  rw [shape, List.getD_eq_getElem?_getD]
  cases hid : schema.shapes[id]? with
  | none => exact .inr rfl
  | some shape => exact .inl (List.mem_of_getElem? hid)

theorem ResolvedSchema.kind_eq_node (schema : ResolvedSchema) (id : ShapeId) :
    (schema.shape id).kind = .node ↔ (schema.shape id).path = none := by
  rcases schema.shape_mem_or id with hmem | hempty
  · rw [schema.kinds _ hmem, Option.isNone_iff_eq_none]
  · rw [hempty]
    exact iff_of_true rfl rfl

theorem ResolvedSchema.Nested.lt_length {schema : ResolvedSchema} {a b : ShapeId}
    (h : schema.Nested a b) : b < schema.shapes.length := by
  rw [Nested] at h
  rcases schema.shape_mem_or a with hmem | hempty
  · exact schema.closed _ hmem b h
  · rw [hempty] at h
    cases h

/-! ## The state of a validation -/

inductive CachedConformance where
  | inProgress
  | conforms
  | violates
  deriving DecidableEq

inductive PendingPath where
  | portable (path : ResolvedPath)
  | predicate (p : TermId)

structure PendingResult where
  focus : TermId
  value : Option TermId
  resultPath : Option PendingPath
  sourceShape : String
  component : String
  severity : String
  messages : List ShaclMessage

structure Validator where
  pathWork : PathWork
  pathCache : ShapeId × TermId → Option NodeSet
  conformanceCache : ShapeId × TermId → Option CachedConformance
  results : List PendingResult
  halted : Bool

def Validator.start : Validator where
  pathWork := ⟨0⟩
  pathCache _ := none
  conformanceCache _ := none
  results := []
  halted := false

inductive ShaclError where
  | path (e : PathError)
  | cyclicShapeEvaluation (shape : String) (focus : TermId)
  | resultLimitExceeded (limit : Nat)
  | unsupportedRecursiveShape (shape : String)
  | unsupportedRdfStarTerm (term : String)
  deriving DecidableEq

inductive EvalError where
  | shacl (e : ShaclError)
  /-- The nesting that the model allows is used up. -/
  | tooDeep
  deriving DecidableEq

abbrev EvalM := Comp Validator EvalError

/-- What one validation does not change. -/
structure EvalContext where
  data : ShaclData
  schema : ResolvedSchema
  options : ShaclValidationOptions
  stopAfterFirst : Bool

/-! ## Reporting -/

def shaclNamespace : String := "http://www.w3.org/ns/shacl#"

def qualifiedMin : String := shaclNamespace ++ "QualifiedMinCountConstraintComponent"

def qualifiedMax : String := shaclNamespace ++ "QualifiedMaxCountConstraintComponent"

def componentIri : ResolvedConstraint → String
  | .class _ => shaclNamespace ++ "ClassConstraintComponent"
  | .datatype _ => shaclNamespace ++ "DatatypeConstraintComponent"
  | .nodeKind _ => shaclNamespace ++ "NodeKindConstraintComponent"
  | .minCount _ => shaclNamespace ++ "MinCountConstraintComponent"
  | .maxCount _ => shaclNamespace ++ "MaxCountConstraintComponent"
  | .minExclusive _ => shaclNamespace ++ "MinExclusiveConstraintComponent"
  | .maxExclusive _ => shaclNamespace ++ "MaxExclusiveConstraintComponent"
  | .minInclusive _ => shaclNamespace ++ "MinInclusiveConstraintComponent"
  | .maxInclusive _ => shaclNamespace ++ "MaxInclusiveConstraintComponent"
  | .minLength _ => shaclNamespace ++ "MinLengthConstraintComponent"
  | .maxLength _ => shaclNamespace ++ "MaxLengthConstraintComponent"
  | .pattern _ => shaclNamespace ++ "PatternConstraintComponent"
  | .uniqueLang _ => shaclNamespace ++ "UniqueLangConstraintComponent"
  | .languageIn _ => shaclNamespace ++ "LanguageInConstraintComponent"
  | .equals _ => shaclNamespace ++ "EqualsConstraintComponent"
  | .disjoint _ => shaclNamespace ++ "DisjointConstraintComponent"
  | .lessThan _ => shaclNamespace ++ "LessThanConstraintComponent"
  | .lessOrEqual _ => shaclNamespace ++ "LessThanOrEqualsConstraintComponent"
  | .or _ => shaclNamespace ++ "OrConstraintComponent"
  | .and _ => shaclNamespace ++ "AndConstraintComponent"
  | .not _ => shaclNamespace ++ "NotConstraintComponent"
  | .xone _ => shaclNamespace ++ "XoneConstraintComponent"
  | .node _ => shaclNamespace ++ "NodeConstraintComponent"
  | .hasValue _ => shaclNamespace ++ "HasValueConstraintComponent"
  | .in _ => shaclNamespace ++ "InConstraintComponent"
  | .qualifiedValueShape _ (some _) _ _ _ => qualifiedMin
  | .qualifiedValueShape _ none _ _ _ => qualifiedMax
  | .closed _ => shaclNamespace ++ "ClosedConstraintComponent"

/-- A violation of a constraint, before it is known where it is reported. -/
structure Violation where
  value : Option TermId
  path : Option PendingPath
  component : Option String

def CompiledShape.result (shape : CompiledShape) (constraint : ResolvedConstraint) (focus : TermId)
    (violation : Violation) : PendingResult where
  focus := focus
  value := violation.value
  resultPath := violation.path.or (shape.path.map .portable)
  sourceShape := shape.label
  component := violation.component.getD (componentIri constraint)
  severity := shape.severity
  messages := shape.messages

section Evaluator

variable (ctx : EvalContext)

def violate (id : ShapeId) (constraint : ResolvedConstraint) (focus : TermId)
    (violation : Violation) (emit : Bool) : EvalM Unit := do
  if emit then
    if ctx.options.maxResults ≤ (← get).results.length then
      throw (.shacl (.resultLimitExceeded ctx.options.maxResults))
    else
      modify fun st => { st with
        results := st.results ++ [(ctx.schema.shape id).result constraint focus violation]
        halted := ctx.stopAfterFirst }

/-- A loop over values ends at a violation that is not to be reported, or that is enough. -/
def stop (emit : Bool) : EvalM Bool := do
  return !emit || (← get).halted

/-! ## Values -/

def walkPath (path : ResolvedPath) (focus : TermId) (cap : Option Nat) : EvalM NodeSet := fun st =>
  match pathValues ctx.data.view ctx.options path focus cap st.pathWork with
  | .ok (values, pathWork) => .ok (values, { st with pathWork })
  | .error e => .error (.shacl (.path e))

/-- The value nodes of a shape. Those that are not capped are remembered. -/
def shapeValues (id : ShapeId) (focus : TermId) (cap : Option Nat) : EvalM NodeSet :=
  match (ctx.schema.shape id).path with
  | none => pure ((∅ : NodeSet).insert focus)
  | some path => do
      match cap, (← get).pathCache (id, focus) with
      | none, some values => pure values
      | none, none => do
          let values ← walkPath ctx path focus none
          modify fun st => { st with
            pathCache := Function.update st.pathCache (id, focus) (some values) }
          pure values
      | some cap, _ => walkPath ctx path focus (some cap)

def focusValues (focus predicate : TermId) : NodeSet :=
  ExtTreeSet.ofList (ctx.data.view.forward focus predicate) compare

def tripleExists (s p o : TermId) : Bool := decide ((p, o) ∈ ctx.data.view.scan s)

/-! ## Checks of one value -/

def nodeKindMatches : NodeKindPlan → Option TermKind → Bool
  | .iri, actual => actual == some .iri
  | .literal, actual => actual == some .literal
  | .blankNode, actual => actual == some .blankNode
  | .blankOrIri, actual => actual == some .blankNode || actual == some .iri
  | .blankOrLiteral, actual => actual == some .blankNode || actual == some .literal
  | .iriOrLiteral, actual => actual == some .iri || actual == some .literal

def languageMatches (language : String) (ranges : List String) : Bool :=
  ranges.any fun range =>
    range == "*" || language.toLower == range ||
      (language.toLower.startsWith range && (language.toLower.drop range.length).startsWith "-")

def compareValue (value : TermId) (boundary : TermMeta) : Option Ordering := do
  ctx.data.partialCmp (← ctx.data.termMeta value) boundary

def isLess (c : Option Ordering) : Bool := c == some .lt

def isGreater (c : Option Ordering) : Bool := c == some .gt

def isLessOrEqual (c : Option Ordering) : Bool := c == some .lt || c == some .eq

def isGreaterOrEqual (c : Option Ordering) : Bool := c == some .gt || c == some .eq

def valueLength (value : TermId) : Option Nat :=
  ((ctx.data.termMeta value).filter fun m => m.lexical.isSome).map TermMeta.lexicalLength

/-- A value compares with all values of a predicate. -/
def comparesWithAll (holds : Option Ordering → Bool) (value : TermId) (others : NodeSet) : Bool :=
  match ctx.data.termMeta value with
  | none => false
  | some left => others.toList.all fun right =>
    holds ((ctx.data.termMeta right).bind (ctx.data.partialCmp left))

/-! ## Violations that need no other shape -/

def Violation.plain : Violation := ⟨none, none, none⟩

def Violation.ofValue (value : TermId) : Violation := ⟨some value, none, none⟩

def failing (check : TermId → Bool) (values : NodeSet) : List Violation :=
  (values.toList.filter fun v => !check v).map .ofValue

/-- The languages that are seen a second time, each once. -/
def repeatedLanguages : List TermId → List String → List String → List String
  | [], _, _ => []
  | v :: vs, seen, reported =>
    match (ctx.data.termMeta v).bind TermMeta.language with
    | none => repeatedLanguages vs seen reported
    | some language =>
      if language ∈ seen ∧ language ∉ reported then
        language :: repeatedLanguages vs seen (language :: reported)
      else repeatedLanguages vs (language :: seen) reported

/-- The violations that a loop over the values finds, for the constraints that refer to no shape. -/
def valueViolations (focus : TermId) (values : NodeSet) : ResolvedConstraint → List Violation
  | .class c => failing (fun v => tripleExists ctx v ctx.data.rdfType c) values
  | .datatype d =>
    failing (fun v => (ctx.data.termMeta v).bind TermMeta.datatype == some d) values
  | .nodeKind k =>
    failing (fun v => nodeKindMatches k ((ctx.data.termMeta v).map TermMeta.kind)) values
  | .minExclusive b => failing (fun v => isGreater (compareValue ctx v b)) values
  | .maxExclusive b => failing (fun v => isLess (compareValue ctx v b)) values
  | .minInclusive b => failing (fun v => isGreaterOrEqual (compareValue ctx v b)) values
  | .maxInclusive b => failing (fun v => isLessOrEqual (compareValue ctx v b)) values
  | .minLength m => failing (fun v => (valueLength ctx v).any (m ≤ ·)) values
  | .maxLength m => failing (fun v => (valueLength ctx v).any (· ≤ m)) values
  | .pattern isMatch =>
    failing (fun v => ((ctx.data.termMeta v).bind TermMeta.lexical).any isMatch) values
  | .uniqueLang required =>
    if required then (repeatedLanguages ctx values.toList [] []).map fun _ => .plain else []
  | .languageIn ranges =>
    failing (fun v => ((ctx.data.termMeta v).bind TermMeta.language).any
      (languageMatches · ranges)) values
  | .in allowed => failing (fun v => decide (v ∈ allowed)) values
  | .equals p =>
    let other := focusValues ctx focus p
    ((Walk.extend values other).toList.filter fun v =>
      decide (v ∈ values) != decide (v ∈ other)).map .ofValue
  | .disjoint p =>
    let other := focusValues ctx focus p
    (values.toList.filter fun v => decide (v ∈ other)).map .ofValue
  | .lessThan p =>
    failing (fun v => comparesWithAll ctx isLess v (focusValues ctx focus p)) values
  | .lessOrEqual p =>
    failing (fun v => comparesWithAll ctx isLessOrEqual v (focusValues ctx focus p)) values
  | _ => []

def allowedPredicates (id : ShapeId) (ignored : NodeSet) : NodeSet :=
  (ctx.schema.shape id).propertyShapes.foldl (fun allowed property =>
    match (ctx.schema.shape property).path with
    | some (.predicate p) => allowed.insert p
    | _ => allowed) ignored

def closedViolations (id : ShapeId) (focus : TermId) (ignored : NodeSet) : List Violation :=
  ((ctx.data.view.scan focus).filter fun row =>
    !decide (row.1 ∈ allowedPredicates ctx id ignored)).map fun row =>
      ⟨some row.2, some (.predicate row.1), none⟩

/-! ## Constraints -/

def reportAll (id : ShapeId) (focus : TermId) (constraint : ResolvedConstraint) (emit : Bool)
    (violations : List Violation) : EvalM Bool :=
  everyM (stop emit) (fun violation => do
    violate ctx id constraint focus violation emit
    pure false) violations

def violateIf (id : ShapeId) (constraint : ResolvedConstraint) (focus : TermId)
    (violation : Violation) (emit violated : Bool) : EvalM Unit :=
  if violated then violate ctx id constraint focus violation emit else pure ()

/-- Report the values that fail a check which evaluates other shapes. -/
def checkValues (id : ShapeId) (focus : TermId) (constraint : ResolvedConstraint) (emit : Bool)
    (check : TermId → EvalM Bool) : EvalM Bool := do
  let values ← shapeValues ctx id focus none
  everyM (stop emit) (fun v => do
    if ← check v then pure true
    else do
      violate ctx id constraint focus (.ofValue v) emit
      pure false) values.toList

def hasValue (id : ShapeId) (focus expected : TermId) : EvalM Bool :=
  match (ctx.schema.shape id).path with
  | none => pure (focus == expected)
  | some (.predicate p) => pure (tripleExists ctx focus p expected)
  | some (.inverse (.predicate p)) => pure (tripleExists ctx expected p focus)
  | some _ => do
      let values ← shapeValues ctx id focus none
      pure (decide (expected ∈ values))

section Constraint

variable (conforms : ShapeId → TermId → EvalM Bool)

/-- A value that counts for a qualified value shape: it conforms to the shape, and if the shapes are
disjoint to no sibling. -/
def qualifies (shape : ShapeId) (isDisjoint : Bool) (siblings : List ShapeId) (v : TermId) :
    EvalM Bool := do
  if ← conforms shape v then
    if isDisjoint then
      let matched ← someM (fun sibling => conforms sibling v) siblings
      pure !matched
    else pure true
  else pure false

def evaluateConstraint (id : ShapeId) (focus : TermId) (emit : Bool) :
    ResolvedConstraint → EvalM Bool
  | .minCount minimum => do
      let values ← shapeValues ctx id focus (minCountCap minimum)
      reportAll ctx id focus (.minCount minimum) emit
        (if minCountConforms minimum values then [] else [.plain])
  | .maxCount maximum => do
      let values ← shapeValues ctx id focus (maxCountCap maximum)
      reportAll ctx id focus (.maxCount maximum) emit
        (if maxCountConforms maximum values then [] else [.plain])
  | .hasValue expected => do
      let found ← hasValue ctx id focus expected
      reportAll ctx id focus (.hasValue expected) emit (if found then [] else [.plain])
  | .closed ignored =>
    reportAll ctx id focus (.closed ignored) emit (closedViolations ctx id focus ignored)
  | .qualifiedValueShape shape minCount maxCount isDisjoint siblings => do
      let constraint := .qualifiedValueShape shape minCount maxCount isDisjoint siblings
      let values ← shapeValues ctx id focus none
      let count ← countM (qualifies conforms shape isDisjoint siblings) values.toList
      let tooFew := minCount.any (count < ·)
      let tooMany := maxCount.any (· < count)
      violateIf ctx id constraint focus ⟨none, none, some qualifiedMin⟩ emit tooFew
      violateIf ctx id constraint focus ⟨none, none, some qualifiedMax⟩ emit tooMany
      pure (!tooFew && !tooMany)
  | .node shape => checkValues ctx id focus (.node shape) emit fun v => conforms shape v
  | .not shape => checkValues ctx id focus (.not shape) emit fun v => do
      let matched ← conforms shape v
      pure !matched
  | .and shapes => checkValues ctx id focus (.and shapes) emit fun v => do
      let matched ← countM (fun shape => conforms shape v) shapes
      pure (matched == shapes.length)
  | .or shapes => checkValues ctx id focus (.or shapes) emit fun v => do
      let matched ← countM (fun shape => conforms shape v) shapes
      pure (decide (0 < matched))
  | .xone shapes => checkValues ctx id focus (.xone shapes) emit fun v => do
      let matched ← countM (fun shape => conforms shape v) shapes
      pure (matched == 1)
  | constraint => do
      let values ← shapeValues ctx id focus none
      reportAll ctx id focus constraint emit (valueViolations ctx focus values constraint)

end Constraint

/-! ## Shapes -/

/-- The nodes that the property shapes of a shape are evaluated on: those of a property shape apply
to its value nodes. -/
def propertyFocusNodes (id : ShapeId) (focus : TermId) : EvalM NodeSet :=
  match (ctx.schema.shape id).kind with
  | .node => pure ((∅ : NodeSet).insert focus)
  | .property => shapeValues ctx id focus none

section Shape

variable (evaluate : ShapeId → TermId → Bool → EvalM Bool)

def evaluateProperties (id : ShapeId) (focus : TermId) (emit : Bool) : EvalM Bool := do
  let focusNodes ← propertyFocusNodes ctx id focus
  everyM (stop emit) (fun pair => evaluate pair.2 pair.1 emit)
    (focusNodes.toList.flatMap fun v =>
      (ctx.schema.shape id).propertyShapes.map fun property => (v, property))

/-- The constraints of a shape, and its property shapes. A top-level node shape reaches its property
shapes through their targets. -/
def evaluateBody (id : ShapeId) (focus : TermId) (emit : Bool) : EvalM Bool := do
  let shape := ctx.schema.shape id
  let conforms ← everyM (stop emit)
    (evaluateConstraint ctx (fun nested v => evaluate nested v false) id focus emit)
    shape.constraints
  let st ← get
  let nested := !emit || shape.kind == .property
  if nested && !shape.propertyShapes.isEmpty && (conforms || emit) && !st.halted then do
    let below ← evaluateProperties ctx evaluate id focus emit
    pure (conforms && below)
  else pure conforms

end Shape

def setConformance (id : ShapeId) (focus : TermId) (cached : CachedConformance) : EvalM Unit :=
  modify fun st => { st with
    conformanceCache := Function.update st.conformanceCache (id, focus) (some cached) }

def evaluateShape : Nat → ShapeId → TermId → Bool → EvalM Bool
  | 0, _, _, _ => throw .tooDeep
  | depth + 1, id, focus, emit => do
      if (ctx.schema.shape id).deactivated then pure true
      else if emit then evaluateBody ctx (evaluateShape depth) id focus true
      else match (← get).conformanceCache (id, focus) with
        | some .conforms => pure true
        | some .violates => pure false
        | some .inProgress =>
          throw (.shacl (.cyclicShapeEvaluation (ctx.schema.shape id).label focus))
        | none => do
            setConformance id focus .inProgress
            let conforms ← evaluateBody ctx (evaluateShape depth) id focus false
            setConformance id focus (if conforms then .conforms else .violates)
            pure conforms

end Evaluator

end Craqle
