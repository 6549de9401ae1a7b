import Craqle.Core.Batch
import Craqle.Lib.Edits

/-! # SPARQL updates

`evaluate_update` turns an update request into one list of changes. All operations are evaluated on
the content that the store has when the request starts: a `WHERE` clause sees the rows of the graphs
that the caller may read, without orphaned entities, and `CLEAR` and `DROP` list the quads of their
graphs. Every change needs the right to write its graph.

The evaluator of `WHERE` clauses is not part of the repository. It is a parameter: what it answers
can depend on anything physical (term identifiers, scan orders, plans), and it may yield the quads of
the solutions in any order.
-/

namespace Craqle

open Edits (Edit)

/-! ## The request -/

inductive TermPattern where
  | namedNode (term : EncodedTerm)
  | literal (term : EncodedTerm)
  | blankNode (id : Text)
  | var (name : Text)
  deriving DecidableEq

inductive NamedNodePattern where
  | namedNode (term : EncodedTerm)
  | var (name : Text)
  deriving DecidableEq

structure TriplePattern where
  subject : TermPattern
  predicate : NamedNodePattern
  object : TermPattern
  deriving DecidableEq

/-- A property path. Only the evaluator reads it. -/
inductive PropertyPathExpression where
  | namedNode (term : EncodedTerm)
  | reverse (path : PropertyPathExpression)
  | sequence (left right : PropertyPathExpression)
  | alternative (left right : PropertyPathExpression)
  | zeroOrMore (path : PropertyPathExpression)
  | oneOrMore (path : PropertyPathExpression)
  | zeroOrOne (path : PropertyPathExpression)
  | negatedPropertySet (terms : List EncodedTerm)

inductive BinaryOperator where
  | or | and | equal | sameTerm | greater | greaterOrEqual | less | lessOrEqual
  | add | subtract | multiply | divide
  deriving DecidableEq

inductive UnaryOperator where
  | plus | minus | not
  deriving DecidableEq

mutual

inductive Expression where
  | namedNode (term : EncodedTerm)
  | literal (term : EncodedTerm)
  | var (name : Text)
  | binary (operator : BinaryOperator) (left right : Expression)
  | unary (operator : UnaryOperator) (inner : Expression)
  | isIn (left : Expression) (right : List Expression)
  | existsPattern (pattern : Pattern)
  | bound (name : Text)
  | ifThenElse (condition left right : Expression)
  | coalesce (expressions : List Expression)
  | functionCall (function : Text) (arguments : List Expression)

inductive Aggregate where
  | countSolutions (distinct : Bool)
  | functionCall (function : Text) (expr : Expression) (distinct : Bool)

inductive Pattern where
  | bgp (patterns : List TriplePattern)
  | path (subject : TermPattern) (path : PropertyPathExpression) (object : TermPattern)
  | join (left right : Pattern)
  | lateral (left right : Pattern)
  | leftJoin (left right : Pattern) (expression : Option Expression)
  | filter (expr : Expression) (inner : Pattern)
  | union (left right : Pattern)
  | graph (name : NamedNodePattern) (inner : Pattern)
  | extend (inner : Pattern) (name : Text) (expression : Expression)
  | minus (left right : Pattern)
  | values (vars : List Text) (bindings : List (List (Option EncodedTerm)))
  | orderBy (inner : Pattern) (expressions : List (Bool × Expression))
  | project (inner : Pattern) (vars : List Text)
  | distinct (inner : Pattern)
  | reduced (inner : Pattern)
  | slice (inner : Pattern) (start : Nat) (length : Option Nat)
  | group (inner : Pattern) (vars : List Text) (aggregates : List (Text × Aggregate))
  | service (name : NamedNodePattern) (inner : Pattern) (silent : Bool)

end

inductive GraphNamePattern where
  | namedNode (graph : GraphId)
  | defaultGraph
  | var (name : Text)
  deriving DecidableEq

/-- A template of `INSERT`. A blank node stands for a new one in every solution. -/
structure QuadTemplate where
  triple : TriplePattern
  graph : GraphNamePattern
  deriving DecidableEq

inductive GraphName where
  | namedNode (graph : GraphId)
  | blankNode (label : Text)
  | defaultGraph
  deriving DecidableEq

/-- The graphs of `USING` and `USING NAMED`. -/
structure QueryDataset where
  defaults : List GraphId
  named : Option (List GraphId)
  deriving DecidableEq

inductive GraphTarget where
  | namedNode (graph : GraphId)
  | defaultGraph
  | namedGraphs
  | allGraphs
  deriving DecidableEq

inductive Operation where
  | insertData (data : List (GraphName × Triple))
  | deleteData (data : List (GraphName × Triple))
  | deleteInsert (delete insert : List QuadTemplate) (dataset : Option QueryDataset)
      (pattern : Pattern)
  | clear (silent : Bool) (graph : GraphTarget)
  | drop (silent : Bool) (graph : GraphTarget)
  | create (silent : Bool) (graph : GraphId)
  | load (silent : Bool)

abbrev NamedQuad := GraphId × Triple

/-- A change is an edit of the set of live quads. -/
def MaterializedQuadChange.edit : MaterializedQuadChange → Edit NamedQuad
  | .insert graph quad => .insert (graph, quad)
  | .delete graph quad => .delete (graph, quad)

/-- Changes applied in order. -/
def applyChanges (changes : List MaterializedQuadChange) (quads : Finset NamedQuad) :
    Finset NamedQuad :=
  Edits.apply (changes.map MaterializedQuadChange.edit) quads

/-! ## What the evaluator reads and answers -/

structure RdfDataset where
  graphs : Finset GraphId
  quads : Finset NamedQuad

abbrev Solution := Text → Option EncodedTerm

/-- A quad that an update yields for a solution. -/
inductive DeleteInsertQuad where
  | delete (graph : GraphName) (quad : Triple)
  | insert (graph : GraphName) (quad : Triple)
  deriving DecidableEq

/-- The evaluator of `WHERE` clauses, on a store in some physical state. -/
structure Evaluator (Physical : Type) where
  /-- The solutions of a pattern. -/
  solve : Physical → Option QueryDataset → Pattern → RdfDataset → List Solution
  /-- The new blank node for a label of a template in the solution with a number. -/
  fresh : Physical → Nat → Text → EncodedTerm
  /-- The order in which the quads of the solutions are yielded. -/
  arrange : Physical → List DeleteInsertQuad → List DeleteInsertQuad

def EncodedTerm.isNamedNode (t : EncodedTerm) : Bool := t.text.head? == some '<'

def EncodedTerm.isLiteral (t : EncodedTerm) : Bool := t.text.head? == some '"'

def graphNameOf (t : EncodedTerm) : Option GraphName :=
  match t.text with
  | '<' :: rest => some (.namedNode ⟨rest.dropLast⟩)
  | '_' :: ':' :: label => some (.blankNode label)
  | _ => none

namespace QuadTemplate

variable (blank : Text → Option EncodedTerm) (σ : Solution)

/-- The term of a template's place under a solution. -/
def termAt : TermPattern → Option EncodedTerm
  | .namedNode term | .literal term => some term
  | .blankNode label => blank label
  | .var name => σ name

def predicateAt : NamedNodePattern → Option EncodedTerm
  | .namedNode term => some term
  | .var name => (σ name).filter EncodedTerm.isNamedNode

def graphAt : GraphNamePattern → Option GraphName
  | .namedNode graph => some (.namedNode graph)
  | .defaultGraph => some .defaultGraph
  | .var name => (σ name).bind graphNameOf

/-- The quad of a template under a solution, if all variables are bound to terms that may stand
there. -/
def instantiate (t : QuadTemplate) : Option (GraphName × Triple) := do
  let graph ← graphAt σ t.graph
  let subject ← (termAt blank σ t.triple.subject).filter fun term => !term.isLiteral
  let predicate ← predicateAt σ t.triple.predicate
  let object ← termAt blank σ t.triple.object
  return (graph, ⟨subject, predicate, object⟩)

end QuadTemplate

def deletions (delete : List QuadTemplate) (solutions : List Solution) : List (GraphName × Triple) :=
  solutions.flatMap fun σ => delete.filterMap (QuadTemplate.instantiate (fun _ => none) σ)

/-- The quads that solutions insert, with new blank nodes in every solution. -/
def insertions (fresh : Nat → Text → EncodedTerm) (insert : List QuadTemplate)
    (solutions : List Solution) : List (GraphName × Triple) :=
  solutions.zipIdx.flatMap fun σ =>
    insert.filterMap (QuadTemplate.instantiate (fun label => some (fresh σ.2 label)) σ.1)

/-- The quads of an update in the order in which the evaluator yields them. -/
def Evaluator.yielded {Physical : Type} (e : Evaluator Physical) (phys : Physical)
    (delete insert : List QuadTemplate) (dataset : Option QueryDataset) (pattern : Pattern)
    (view : RdfDataset) : List DeleteInsertQuad :=
  let solutions := e.solve phys dataset pattern view
  e.arrange phys ((deletions delete solutions).map (fun q => .delete q.1 q.2) ++
    (insertions (e.fresh phys) insert solutions).map fun q => .insert q.1 q.2)

/-! ## Rights -/

inductive Action where
  | read
  | write
  deriving DecidableEq

inductive AuthorizationError where
  | permissionDenied (action : Action) (graph : GraphId)
  | invalidPattern (pattern message : String)
  deriving DecidableEq

/-- Authorization is the embedding application's. -/
abbrev Authorizer (Policy : Type):= GraphId → Policy → Action → Except AuthorizationError Unit

/-- What an update reads of the store: the graphs that have a record, their policies, the live quads
in key order, and the entities that the diagnostics of a graph hide. A write of a quad also writes the
record of its graph. -/
structure UpdateStore (Policy : Type) where
  graphs : List GraphId
  policy : GraphId → Policy
  quads : List NamedQuad
  orphaned : GraphId → EncodedTerm → Bool
  recorded : ∀ q ∈ quads, q.1 ∈ graphs

namespace UpdateStore

variable {Policy : Type} (store : UpdateStore Policy)

def graphPolicy (graph : GraphId) : Option Policy :=
  if graph ∈ store.graphs then some (store.policy graph) else none

/-- All that is stored. -/
def content : RdfDataset where
  graphs := store.graphs.toFinset
  quads := store.quads.toFinset

/-- What a caller sees who may read the given graphs. -/
def visible (readable : List GraphId) : RdfDataset where
  graphs := (store.graphs.filter (· ∈ readable)).toFinset
  quads := (store.quads.filter fun q => q.1 ∈ store.graphs ∧ q.1 ∈ readable ∧
    !store.orphaned q.1 q.2.subject ∧ !store.orphaned q.1 q.2.object).toFinset

end UpdateStore

/-! ## The authorization walk -/

/-- Why an update is refused. -/
inductive UpdateFailure where
  | authorization (error : AuthorizationError)
  | unsupported (message : String)
  | queryLimit (resource : String) (limit : Nat)
  deriving DecidableEq

section Authorize

variable {Policy : Type} [Inhabited Policy] (auth : Authorizer Policy) (store : UpdateStore Policy)

def authorizeUpdateGraph (graph : GraphId) (action : Action) (denyMissing : Bool) :
    Except UpdateFailure Unit :=
  match store.graphPolicy graph with
  | none =>
    if denyMissing then .error (.authorization (.permissionDenied action graph))
    else (auth graph default action).mapError .authorization
  | some policy => (auth graph policy action).mapError .authorization

/-- Read a graph that must exist. -/
def authorizeRead (graph : GraphId) : Except UpdateFailure Unit :=
  authorizeUpdateGraph auth store graph .read true

def authorizeWrite (graph : GraphId) : Except UpdateFailure Unit :=
  authorizeUpdateGraph auth store graph .write false

/-- One graph of the loop that collects the readable graphs. Only a denial hides a graph. -/
def collectReadable (readable : List GraphId) (graph : GraphId) :
    Except UpdateFailure (List GraphId) :=
  match store.graphPolicy graph with
  | none => .ok readable
  | some policy =>
    match auth graph policy .read with
    | .ok () => .ok (readable ++ [graph])
    | .error (.permissionDenied _ _) => .ok readable
    | .error (.invalidPattern pattern message) =>
      .error (.authorization (.invalidPattern pattern message))

/-- The graphs that the caller may read. -/
def readableUpdateGraphs : Except UpdateFailure (List GraphId) :=
  store.graphs.foldlM (collectReadable auth store) []

def mayRead (graph : GraphId) : Bool :=
  graph ∈ store.graphs && (auth graph (store.policy graph) .read).isOk

/-- The authorizer grants or denies; it does not fail on a pattern. -/
def Answers (graph : GraphId) : Prop :=
  ∀ pattern message, auth graph (store.policy graph) .read ≠ .error (.invalidPattern pattern message)

variable {auth store}

omit [Inhabited Policy] in
theorem collectReadable_eq_ok {readable readable' : List GraphId} {graph : GraphId}
    (hgraph : graph ∈ store.graphs) :
    collectReadable auth store readable graph = .ok readable' ↔
      Answers auth store graph ∧ readable' = readable ++ [graph].filter (mayRead auth store) := by
  rw [collectReadable, UpdateStore.graphPolicy, if_pos hgraph]
  simp only [Answers, mayRead, hgraph, decide_true, Bool.true_and, List.filter_cons, List.filter_nil]
  match auth graph (store.policy graph) .read with
  | .ok () => simp [Except.isOk, Except.toBool, eq_comm]
  | .error (.permissionDenied action graph) => simp [Except.isOk, Except.toBool, eq_comm]
  | .error (.invalidPattern pattern message) => simp

omit [Inhabited Policy] in
/-- **The readable graphs** are those that may be read, if the authorizer answers for all. -/
theorem readableUpdateGraphs_eq_ok {readable : List GraphId} :
    readableUpdateGraphs auth store = .ok readable ↔
      (∀ graph ∈ store.graphs, Answers auth store graph) ∧
        readable = store.graphs.filter (mayRead auth store) := by
  have hfilter : store.graphs.filter (mayRead auth store) =
      store.graphs.flatMap fun graph => [graph].filter (mayRead auth store) := by
    rw [← List.filter_flatMap, List.flatMap_singleton']
  rw [hfilter]
  exact Fallible.foldlM_collect fun graph hgraph _ _ => collectReadable_eq_ok hgraph

end Authorize

section Walk

variable (check : GraphId → Except UpdateFailure Unit)

def graphOfIri (term : EncodedTerm) : GraphId := ⟨term.text.tail.dropLast⟩

mutual

def authorizeUpdatePattern : Pattern → Except UpdateFailure Unit
  | .bgp _ | .path _ _ _ | .values _ _ => .ok ()
  | .join left right | .union left right | .minus left right => do
      authorizeUpdatePattern left
      authorizeUpdatePattern right
  | .leftJoin left right expression => do
      authorizeUpdatePattern left
      authorizeUpdatePattern right
      authorizeOptional expression
  | .filter expr inner => do
      authorizeUpdatePattern inner
      authorizeUpdateExpression expr
  | .graph (.namedNode graph) inner => do
      check (graphOfIri graph)
      authorizeUpdatePattern inner
  | .graph (.var _) inner => authorizeUpdatePattern inner
  | .extend inner _ expression => do
      authorizeUpdatePattern inner
      authorizeUpdateExpression expression
  | .orderBy inner expressions => do
      authorizeUpdatePattern inner
      authorizeOrder expressions
  | .project inner _ | .distinct inner | .reduced inner | .slice inner _ _ =>
    authorizeUpdatePattern inner
  | .group inner _ aggregates => do
      authorizeUpdatePattern inner
      authorizeAggregates aggregates
  | .service _ _ _ => .error (.unsupported "SERVICE is not supported by SPARQL Update")
  -- the last arm; of the patterns of the algebra only lateral joins get there
  | .lateral _ _ => .error (.unsupported "unsupported SPARQL Update graph pattern")

def authorizeUpdateExpression : Expression → Except UpdateFailure Unit
  | .namedNode _ | .literal _ | .var _ | .bound _ => .ok ()
  | .binary _ left right => do
      authorizeUpdateExpression left
      authorizeUpdateExpression right
  | .isIn left right => do
      authorizeUpdateExpression left
      authorizeList right
  | .unary _ inner => authorizeUpdateExpression inner
  | .existsPattern pattern => authorizeUpdatePattern pattern
  | .ifThenElse condition left right => do
      authorizeUpdateExpression condition
      authorizeUpdateExpression left
      authorizeUpdateExpression right
  | .coalesce expressions | .functionCall _ expressions => authorizeList expressions

def authorizeList : List Expression → Except UpdateFailure Unit
  | [] => .ok ()
  | expression :: expressions => do
      authorizeUpdateExpression expression
      authorizeList expressions

def authorizeOptional : Option Expression → Except UpdateFailure Unit
  | none => .ok ()
  | some expression => authorizeUpdateExpression expression

def authorizeOrder : List (Bool × Expression) → Except UpdateFailure Unit
  | [] => .ok ()
  | (_, expression) :: expressions => do
      authorizeUpdateExpression expression
      authorizeOrder expressions

def authorizeAggregates : List (Text × Aggregate) → Except UpdateFailure Unit
  | [] => .ok ()
  | (_, .countSolutions _) :: aggregates => authorizeAggregates aggregates
  | (_, .functionCall _ expr _) :: aggregates => do
      authorizeUpdateExpression expr
      authorizeAggregates aggregates

end

end Walk

/-! ## The changes of a request -/

structure UpdateLimits where
  maxMaterializedBindings : Nat
  maxChanges : Nat
  maxGraphs : Nat

/-- The changes so far, and the graphs that they name. -/
structure Pushed where
  changes : List MaterializedQuadChange
  graphs : Finset GraphId

def pushUpdateChange (limits : UpdateLimits) (acc : Pushed) (change : MaterializedQuadChange) :
    Except UpdateFailure Pushed :=
  if limits.maxChanges ≤ acc.changes.length then
    .error (.queryLimit "update changes" limits.maxChanges)
  else
    let graphs := insert change.graph acc.graphs
    if limits.maxGraphs < graphs.card then .error (.queryLimit "update graphs" limits.maxGraphs)
    else .ok ⟨acc.changes ++ [change], graphs⟩

def Pushed.push (acc : Pushed) (changes : List MaterializedQuadChange) : Pushed :=
  ⟨acc.changes ++ changes, acc.graphs ∪ (changes.map MaterializedQuadChange.graph).toFinset⟩

/-- A list of changes stays within the limits. -/
def Pushed.Fits (limits : UpdateLimits) (acc : Pushed) (changes : List MaterializedQuadChange) :
    Prop :=
  changes ≠ [] → (acc.push changes).changes.length ≤ limits.maxChanges ∧
    (acc.push changes).graphs.card ≤ limits.maxGraphs

section Push

variable {limits : UpdateLimits} {acc acc' : Pushed} {changes : List MaterializedQuadChange}

theorem Pushed.push_nil (acc : Pushed) : acc.push [] = acc := by simp [Pushed.push]

theorem Pushed.push_append (acc : Pushed) (changes changes' : List MaterializedQuadChange) :
    acc.push (changes ++ changes') = (acc.push changes).push changes' := by
  simp [Pushed.push, List.append_assoc, Finset.union_assoc, List.toFinset_append]

theorem Pushed.push_cons (acc : Pushed) (change : MaterializedQuadChange)
    (changes : List MaterializedQuadChange) :
    acc.push (change :: changes) = (acc.push [change]).push changes :=
  acc.push_append [change] changes

theorem pushUpdateChange_eq_ok {change : MaterializedQuadChange} :
    pushUpdateChange limits acc change = .ok acc' ↔
      acc.Fits limits [change] ∧ acc' = acc.push [change] := by
  have hpush : acc.push [change] = ⟨acc.changes ++ [change], insert change.graph acc.graphs⟩ := by
    simp [Pushed.push]
  unfold pushUpdateChange
  simp only [Pushed.Fits, hpush, List.length_append, List.length_singleton]
  split
  · next hlimit =>
    simp only [reduceCtorEq, false_iff, not_and]
    intro hfits
    have := (hfits (by simp)).1
    omega
  rename_i hlimit
  split
  · next hgraphs =>
    simp only [reduceCtorEq, false_iff, not_and]
    intro hfits
    have := (hfits (by simp)).2
    omega
  · next hgraphs =>
    simp only [Except.ok.injEq]
    constructor
    · rintro rfl
      exact ⟨fun _ => ⟨by omega, by omega⟩, rfl⟩
    · rintro ⟨-, rfl⟩
      rfl

/-- A list fits if its first change does, and the rest after it. -/
theorem Pushed.fits_cons {change : MaterializedQuadChange} :
    acc.Fits limits (change :: changes) ↔
      acc.Fits limits [change] ∧ (acc.push [change]).Fits limits changes := by
  have hlength : (acc.push [change]).changes.length ≤
      ((acc.push [change]).push changes).changes.length := by
    simp [Pushed.push]
  have hcard : (acc.push [change]).graphs.card ≤ ((acc.push [change]).push changes).graphs.card :=
    Finset.card_le_card Finset.subset_union_left
  simp only [Pushed.Fits, ne_eq, reduceCtorEq, not_false_eq_true, forall_const,
    acc.push_cons change changes]
  constructor
  · rintro ⟨hchanges, hgraphs⟩
    exact ⟨⟨hlength.trans hchanges, hcard.trans hgraphs⟩, fun _ => ⟨hchanges, hgraphs⟩⟩
  · rintro ⟨hfirst, hrest⟩
    by_cases hnil : changes = []
    · subst hnil
      rw [Pushed.push_nil]
      exact hfirst
    · exact hrest hnil

theorem Pushed.fits_append (changes changes' : List MaterializedQuadChange) {acc : Pushed} :
    acc.Fits limits (changes ++ changes') ↔
      acc.Fits limits changes ∧ (acc.push changes).Fits limits changes' := by
  induction changes generalizing acc with
  | nil => simp [Pushed.push_nil, Pushed.Fits]
  | cons change changes ih =>
    rw [List.cons_append]
    refine Pushed.fits_cons.trans ?_
    rw [ih, ← and_assoc, acc.push_cons change changes]
    exact and_congr_left' Pushed.fits_cons.symm

/-- **Pushing changes** succeeds exactly if they fit. -/
theorem foldlM_pushUpdateChange {acc : Pushed} :
    changes.foldlM (pushUpdateChange limits) acc = .ok acc' ↔
      acc.Fits limits changes ∧ acc' = acc.push changes := by
  induction changes generalizing acc with
  | nil =>
    simp [Pushed.Fits, Pushed.push_nil, pure, Except.pure, eq_comm]
  | cons change changes ih =>
    rw [Fallible.foldlM_cons_eq_ok, Pushed.fits_cons, acc.push_cons change changes]
    constructor
    · rintro ⟨mid, hmid, hrest⟩
      obtain ⟨hfits, rfl⟩ := pushUpdateChange_eq_ok.mp hmid
      obtain ⟨hfits', rfl⟩ := ih.mp hrest
      exact ⟨⟨hfits, hfits'⟩, rfl⟩
    · rintro ⟨⟨hfits, hfits'⟩, rfl⟩
      exact ⟨_, pushUpdateChange_eq_ok.mpr ⟨hfits, rfl⟩, ih.mpr ⟨hfits', rfl⟩⟩

end Push

def defaultGraphFailure : UpdateFailure :=
  .unsupported "default graph updates are not supported; use GRAPH <iri> \x7b ... \x7d"

def graphIdOf : GraphName → Except UpdateFailure GraphId
  | .namedNode graph => .ok graph
  | .blankNode label =>
    .error (.unsupported ("blank node graph names are not supported: _:" ++ String.ofList label))
  | .defaultGraph => .error defaultGraphFailure

def insertChange (q : GraphName × Triple) : Except UpdateFailure MaterializedQuadChange :=
  (graphIdOf q.1).map (.insert · q.2)

def deleteChange (q : GraphName × Triple) : Except UpdateFailure MaterializedQuadChange :=
  (graphIdOf q.1).map (.delete · q.2)

def updateQuadChange : DeleteInsertQuad → Except UpdateFailure MaterializedQuadChange
  | .delete graph quad => deleteChange (graph, quad)
  | .insert graph quad => insertChange (graph, quad)

def QueryDataset.distinct (dataset : QueryDataset) : QueryDataset :=
  ⟨dataset.defaults.dedup, dataset.named.map List.dedup⟩

/-- `normalize_dataset`: repeated names are dropped, and at most one default graph is left. -/
def normalizeDataset (dataset : QueryDataset) : Except UpdateFailure QueryDataset :=
  if 1 < dataset.distinct.defaults.length then
    .error (.unsupported "merging multiple default dataset graphs is not supported")
  else .ok dataset.distinct

def updateTargetGraphs {Policy : Type} (store : UpdateStore Policy) (maxGraphs : Nat) :
    GraphTarget → Except UpdateFailure (List GraphId)
  | .namedNode graph => .ok [graph]
  | .namedGraphs | .allGraphs =>
    if maxGraphs < store.graphs.length then .error (.queryLimit "update graphs" maxGraphs)
    else .ok store.graphs
  | .defaultGraph =>
    .error (.unsupported "default graph updates are not supported; use GRAPH <iri>")

/-- One evaluation of a request: the evaluator on a store, the caller's rights, and the limits. The
static estimate of a pattern's solutions is the parser's tree walk, not modelled here. -/
structure UpdateRun (Physical Policy : Type) where
  evaluator : Evaluator Physical
  phys : Physical
  auth : Authorizer Policy
  store : UpdateStore Policy
  limits : UpdateLimits
  estimatedRows : Pattern → Nat

namespace UpdateRun

variable {Physical Policy : Type} [Inhabited Policy] (run : UpdateRun Physical Policy)

def pushAuthorized (acc : Pushed) (change : MaterializedQuadChange) : Except UpdateFailure Pushed := do
  authorizeWrite run.auth run.store change.graph
  pushUpdateChange run.limits acc change

/-- Push the change of each quad, if the conversion allows it. -/
def pushAll {Q : Type} (toChange : Q → Except UpdateFailure MaterializedQuadChange) (acc : Pushed)
    (quads : List Q) : Except UpdateFailure Pushed :=
  quads.foldlM (fun acc q => do run.pushAuthorized acc (← toChange q)) acc

def authorizeTemplateGraph : GraphNamePattern → Except UpdateFailure Unit
  | .namedNode graph => authorizeWrite run.auth run.store graph
  | .defaultGraph => .error defaultGraphFailure
  | .var _ => .ok ()

/-- `USING` graphs must exist and be readable. -/
def updateDataset : Option QueryDataset → Except UpdateFailure (Option QueryDataset)
  | none => .ok none
  | some dataset => do
      dataset.defaults.forM (authorizeRead run.auth run.store)
      (dataset.named.getD []).forM (authorizeRead run.auth run.store)
      return some (← normalizeDataset dataset)

/-- How many quads the templates of an update may yield. -/
def maxMaterializedQuads (delete insert : List QuadTemplate) : Nat :=
  run.limits.maxMaterializedBindings * max (delete.length + insert.length) 1

def materializedFailure : UpdateFailure :=
  .queryLimit "materialized update bindings" run.limits.maxMaterializedBindings

/-- Push the yielded quads. The quad after the last allowed one ends the update. -/
def pushYielded (maxQuads : Nat) (acc : Pushed) (quads : List DeleteInsertQuad) :
    Except UpdateFailure Pushed := do
  let acc ← run.pushAll updateQuadChange acc (quads.take maxQuads)
  if maxQuads < quads.length then .error run.materializedFailure else return acc

def deleteInsert (readable : List GraphId) (acc : Pushed) (delete insert : List QuadTemplate)
    (dataset : Option QueryDataset) (pattern : Pattern) : Except UpdateFailure Pushed := do
  let dataset ← run.updateDataset dataset
  authorizeUpdatePattern (authorizeRead run.auth run.store) pattern
  (delete ++ insert).forM fun t => run.authorizeTemplateGraph t.graph
  if run.maxMaterializedQuads delete insert < run.estimatedRows pattern then
    .error run.materializedFailure
  else
    run.pushYielded (run.maxMaterializedQuads delete insert) acc
      (run.evaluator.yielded run.phys delete insert dataset pattern (run.store.visible readable))

/-- `CLEAR` and `DROP`: delete all quads of the graphs. -/
def removals (acc : Pushed) (target : GraphTarget) : Except UpdateFailure Pushed := do
  let graphs ← updateTargetGraphs run.store run.limits.maxGraphs target
  graphs.forM (authorizeWrite run.auth run.store)
  (graphs.flatMap fun graph => run.store.quads.filter fun q => q.1 = graph).foldlM
    (fun acc q => pushUpdateChange run.limits acc (.delete q.1 q.2)) acc

def operation (readable : List GraphId) (acc : Pushed) : Operation → Except UpdateFailure Pushed
  | .insertData data => run.pushAll insertChange acc data
  | .deleteData data => run.pushAll deleteChange acc data
  | .deleteInsert delete insert dataset pattern =>
    run.deleteInsert readable acc delete insert dataset pattern
  | .clear _ target | .drop _ target => run.removals acc target
  | .create _ graph => do
      authorizeWrite run.auth run.store graph
      if graph ∈ run.store.graphs then return acc
      else .error (.unsupported ("CREATE is not supported because the write pipeline only " ++
        "materializes quad deltas"))
  | .load _ =>
    .error (.unsupported "LOAD is not supported by the local materialized-delta pipeline")

/-- `evaluate_update`, after the request is parsed. -/
def evaluateUpdate (operations : List Operation) :
    Except UpdateFailure (List MaterializedQuadChange) := do
  let readable ← readableUpdateGraphs run.auth run.store
  let pushed ← operations.foldlM (run.operation readable) ⟨[], ∅⟩
  return pushed.changes

/-! ## What an operation does -/

def Emits (readable : List GraphId) (changes : List MaterializedQuadChange) : Operation → Prop
  | .insertData data => List.Forall₂ (fun q c => insertChange q = .ok c) data changes
  | .deleteData data => List.Forall₂ (fun q c => deleteChange q = .ok c) data changes
  | .deleteInsert delete insert dataset pattern =>
    ∃ dataset', run.updateDataset dataset = .ok dataset' ∧
      authorizeUpdatePattern (authorizeRead run.auth run.store) pattern = .ok () ∧
      (∀ t ∈ delete ++ insert, run.authorizeTemplateGraph t.graph = .ok ()) ∧
      run.estimatedRows pattern ≤ run.maxMaterializedQuads delete insert ∧
      ∃ quads, quads = run.evaluator.yielded run.phys delete insert dataset' pattern
          (run.store.visible readable) ∧
        quads.length ≤ run.maxMaterializedQuads delete insert ∧
        List.Forall₂ (fun q c => updateQuadChange q = .ok c) quads changes
  | .clear _ target | .drop _ target =>
    ∃ graphs, updateTargetGraphs run.store run.limits.maxGraphs target = .ok graphs ∧
      (∀ graph ∈ graphs, authorizeWrite run.auth run.store graph = .ok ()) ∧
      changes = (graphs.flatMap fun graph => run.store.quads.filter fun q => q.1 = graph).map
        fun q => .delete q.1 q.2
  | .create _ graph =>
    authorizeWrite run.auth run.store graph = .ok () ∧ graph ∈ run.store.graphs ∧ changes = []
  | .load _ => False

def Writable (changes : List MaterializedQuadChange) : Prop :=
  ∀ c ∈ changes, authorizeWrite run.auth run.store c.graph = .ok ()

section Spec

variable {run} {readable : List GraphId} {acc acc' : Pushed} {changes : List MaterializedQuadChange}

theorem pushAll_eq_ok {Q : Type} {toChange : Q → Except UpdateFailure MaterializedQuadChange}
    {quads : List Q} {acc : Pushed} :
    run.pushAll toChange acc quads = .ok acc' ↔
      ∃ changes, List.Forall₂ (fun q c => toChange q = .ok c) quads changes ∧
        run.Writable changes ∧ acc.Fits run.limits changes ∧ acc' = acc.push changes := by
  unfold pushAll
  induction quads generalizing acc with
  | nil =>
    simp [Pushed.Fits, Pushed.push_nil, Writable, pure, Except.pure, eq_comm]
  | cons q quads ih =>
    rw [Fallible.foldlM_cons_eq_ok]
    constructor
    · rintro ⟨mid, hmid, hrest⟩
      obtain ⟨c, hc, hpush⟩ := Fallible.bind_eq_ok.mp hmid
      obtain ⟨⟨⟩, hwrite, hpush⟩ := Fallible.bind_eq_ok.mp hpush
      obtain ⟨hfits, rfl⟩ := pushUpdateChange_eq_ok.mp hpush
      obtain ⟨changes, hchanges, hwritable, hfits', rfl⟩ := ih.mp hrest
      refine ⟨c :: changes, .cons hc hchanges, ?_, Pushed.fits_cons.mpr ⟨hfits, hfits'⟩,
        (acc.push_cons c changes).symm⟩
      exact List.forall_mem_cons.mpr ⟨hwrite, hwritable⟩
    · rintro ⟨_, hchanges, hwritable, hfits, rfl⟩
      cases hchanges with
      | cons hc hchanges =>
        rename_i c changes
        obtain ⟨hwrite, hwritable⟩ := List.forall_mem_cons.mp hwritable
        obtain ⟨hfits, hfits'⟩ := Pushed.fits_cons.mp hfits
        refine ⟨acc.push [c], ?_, ih.mpr ⟨changes, hchanges, hwritable, hfits',
          acc.push_cons c changes⟩⟩
        refine Fallible.bind_eq_ok.mpr ⟨c, hc, Fallible.bind_eq_ok.mpr ⟨(), hwrite, ?_⟩⟩
        exact pushUpdateChange_eq_ok.mpr ⟨hfits, rfl⟩

theorem pushYielded_eq_ok {maxQuads : Nat} {quads : List DeleteInsertQuad} :
    run.pushYielded maxQuads acc quads = .ok acc' ↔
      quads.length ≤ maxQuads ∧
      ∃ changes, List.Forall₂ (fun q c => updateQuadChange q = .ok c) quads changes ∧
        run.Writable changes ∧ acc.Fits run.limits changes ∧ acc' = acc.push changes := by
  rw [pushYielded, Fallible.bind_eq_ok]
  constructor
  · rintro ⟨mid, hmid, h⟩
    split at h
    · exact absurd h (by simp)
    · next hquads =>
      cases h
      have hquads := Nat.le_of_not_lt hquads
      rw [List.take_of_length_le hquads] at hmid
      exact ⟨hquads, pushAll_eq_ok.mp hmid⟩
  · rintro ⟨hquads, hpushed⟩
    refine ⟨acc', ?_, if_neg (Nat.not_lt.mpr hquads)⟩
    rw [List.take_of_length_le hquads]
    exact pushAll_eq_ok.mpr hpushed

/-- The dataset of a `WHERE` clause, with repeated names dropped. -/
theorem updateDataset_eq_ok {dataset dataset' : Option QueryDataset}
    (h : run.updateDataset dataset = .ok dataset') : dataset' = dataset.map QueryDataset.distinct := by
  cases dataset with
  | none => exact (Except.ok.inj h).symm
  | some dataset =>
    obtain ⟨_, _, h⟩ := Fallible.bind_eq_ok.mp h
    obtain ⟨_, _, h⟩ := Fallible.bind_eq_ok.mp h
    obtain ⟨normal, hnormal, h⟩ := Fallible.bind_eq_ok.mp h
    rw [normalizeDataset] at hnormal
    split at hnormal
    · exact absurd hnormal (by simp)
    · cases hnormal
      exact (Except.ok.inj h).symm

theorem deleteInsert_eq_ok {delete insert : List QuadTemplate} {dataset : Option QueryDataset}
    {pattern : Pattern} :
    run.deleteInsert readable acc delete insert dataset pattern = .ok acc' ↔
      ∃ changes, run.Emits readable changes (.deleteInsert delete insert dataset pattern) ∧
        run.Writable changes ∧ acc.Fits run.limits changes ∧ acc' = acc.push changes := by
  constructor
  · intro h
    obtain ⟨dataset', hdataset, h⟩ := Fallible.bind_eq_ok.mp h
    obtain ⟨⟨⟩, hpattern, h⟩ := Fallible.bind_eq_ok.mp h
    obtain ⟨⟨⟩, htemplates, h⟩ := Fallible.bind_eq_ok.mp h
    split at h
    · exact absurd h (by simp)
    · next hestimate =>
      obtain ⟨hquads, changes, hchanges, hpushed⟩ := pushYielded_eq_ok.mp h
      exact ⟨changes, ⟨dataset', hdataset, hpattern, Fallible.forM_eq_ok.mp htemplates,
        Nat.le_of_not_lt hestimate, _, rfl, hquads, hchanges⟩, hpushed⟩
  · rintro ⟨changes, ⟨dataset', hdataset, hpattern, htemplates, hestimate, _, rfl, hquads, hchanges⟩,
      hpushed⟩
    refine Fallible.bind_eq_ok.mpr ⟨dataset', hdataset, Fallible.bind_eq_ok.mpr ⟨(), hpattern,
      Fallible.bind_eq_ok.mpr ⟨(), Fallible.forM_eq_ok.mpr htemplates, ?_⟩⟩⟩
    rw [if_neg (Nat.not_lt.mpr hestimate)]
    exact pushYielded_eq_ok.mpr ⟨hquads, changes, hchanges, hpushed⟩

theorem removals_eq_ok (readable : List GraphId) (silent : Bool) {target : GraphTarget} :
    run.removals acc target = .ok acc' ↔
      ∃ changes, run.Emits readable changes (.clear silent target) ∧
        run.Writable changes ∧ acc.Fits run.limits changes ∧ acc' = acc.push changes := by
  have hfold (quads : List NamedQuad) :
      quads.foldlM (fun acc q => pushUpdateChange run.limits acc (.delete q.1 q.2)) acc =
        (quads.map fun q => MaterializedQuadChange.delete q.1 q.2).foldlM
          (pushUpdateChange run.limits) acc := by
    rw [List.foldlM_map]
  constructor
  · intro h
    obtain ⟨graphs, hgraphs, h⟩ := Fallible.bind_eq_ok.mp h
    obtain ⟨⟨⟩, hwrite, h⟩ := Fallible.bind_eq_ok.mp h
    have hwrite := Fallible.forM_eq_ok.mp hwrite
    rw [hfold, foldlM_pushUpdateChange] at h
    refine ⟨_, ⟨graphs, hgraphs, hwrite, rfl⟩, ?_, h⟩
    intro c hc
    simp only [List.mem_map, List.mem_flatMap, List.mem_filter, decide_eq_true_eq] at hc
    obtain ⟨q, ⟨graph, hgraph, -, rfl⟩, rfl⟩ := hc
    exact hwrite _ hgraph
  · rintro ⟨_, ⟨graphs, hgraphs, hwrite, rfl⟩, -, hpushed⟩
    refine Fallible.bind_eq_ok.mpr ⟨graphs, hgraphs, Fallible.bind_eq_ok.mpr
      ⟨(), Fallible.forM_eq_ok.mpr hwrite, ?_⟩⟩
    rw [hfold, foldlM_pushUpdateChange]
    exact hpushed

/-- **What an operation does**: it emits changes, the caller may write them, and they fit. -/
theorem operation_eq_ok {op : Operation} :
    run.operation readable acc op = .ok acc' ↔
      ∃ changes, run.Emits readable changes op ∧
        run.Writable changes ∧ acc.Fits run.limits changes ∧ acc' = acc.push changes := by
  cases op with
  | insertData data | deleteData data => exact pushAll_eq_ok
  | deleteInsert delete insert dataset pattern => exact deleteInsert_eq_ok
  | clear silent target | drop silent target => exact removals_eq_ok readable silent
  | create silent graph =>
    constructor
    · intro h
      obtain ⟨⟨⟩, hwrite, h⟩ := Fallible.bind_eq_ok.mp h
      split at h
      · next hrecord =>
        cases h
        exact ⟨[], ⟨hwrite, hrecord, rfl⟩, by simp [Writable], by simp [Pushed.Fits],
          acc.push_nil.symm⟩
      · exact absurd h (by simp)
    · rintro ⟨_, ⟨hwrite, hrecord, rfl⟩, -, -, rfl⟩
      refine Fallible.bind_eq_ok.mpr ⟨(), hwrite, ?_⟩
      rw [if_pos hrecord, acc.push_nil]
      rfl
  | load silent => simp [operation, Emits]

/-- **What a request does**: its operations emit changes one after the other. -/
theorem evaluateUpdate_eq_ok {operations : List Operation} :
    run.evaluateUpdate operations = .ok changes ↔
      ∃ readable, readableUpdateGraphs run.auth run.store = .ok readable ∧
        ∃ parts, List.Forall₂ (fun op part => run.Emits readable part op) operations parts ∧
          run.Writable parts.flatten ∧ Pushed.Fits run.limits ⟨[], ∅⟩ parts.flatten ∧
          changes = parts.flatten := by
  have hfold (readable : List GraphId) (acc acc' : Pushed) :
      operations.foldlM (run.operation readable) acc = .ok acc' ↔
        ∃ parts, List.Forall₂ (fun op part => run.Emits readable part op) operations parts ∧
          run.Writable parts.flatten ∧ acc.Fits run.limits parts.flatten ∧
          acc' = acc.push parts.flatten := by
    induction operations generalizing acc with
    | nil =>
      simp [Pushed.Fits, Pushed.push_nil, Writable, pure, Except.pure, eq_comm]
    | cons op operations ih =>
      rw [Fallible.foldlM_cons_eq_ok]
      constructor
      · rintro ⟨mid, hmid, hrest⟩
        obtain ⟨part, hpart, hwrite, hfits, rfl⟩ := operation_eq_ok.mp hmid
        obtain ⟨parts, hparts, hwrites, hfits', rfl⟩ := (ih _).mp hrest
        refine ⟨part :: parts, .cons hpart hparts, ?_, ?_, ?_⟩
        · exact List.forall_mem_append.mpr ⟨hwrite, hwrites⟩
        · exact (Pushed.fits_append part parts.flatten).mpr ⟨hfits, hfits'⟩
        · exact (acc.push_append part parts.flatten).symm
      · rintro ⟨_, hparts, hwrites, hfits, rfl⟩
        cases hparts with
        | cons hpart hparts =>
          rename_i part parts
          obtain ⟨hwrite, hwrites⟩ := List.forall_mem_append.mp hwrites
          obtain ⟨hfits, hfits'⟩ := (Pushed.fits_append part parts.flatten).mp hfits
          exact ⟨acc.push part, operation_eq_ok.mpr ⟨part, hpart, hwrite, hfits, rfl⟩,
            (ih _).mpr ⟨parts, hparts, hwrites, hfits', acc.push_append part parts.flatten⟩⟩
  constructor
  · intro h
    obtain ⟨readable, hreadable, h⟩ := Fallible.bind_eq_ok.mp h
    obtain ⟨pushed, hpushed, h⟩ := Fallible.bind_eq_ok.mp h
    obtain ⟨parts, hparts, hwrite, hfits, rfl⟩ := (hfold readable _ _).mp hpushed
    exact ⟨readable, hreadable, parts, hparts, hwrite, hfits, (Except.ok.inj h).symm⟩
  · rintro ⟨readable, hreadable, parts, hparts, hwrite, hfits, rfl⟩
    exact Fallible.bind_eq_ok.mpr ⟨readable, hreadable, Fallible.bind_eq_ok.mpr
      ⟨_, (hfold readable _ _).mpr ⟨parts, hparts, hwrite, hfits, rfl⟩, rfl⟩⟩

end Spec

end UpdateRun

/-! ## A small evaluator

Values that the concrete runs of later modules share. -/

def TriplePattern.ground (t : TriplePattern) : Option Triple :=
  match t.subject, t.predicate, t.object with
  | .namedNode s, .namedNode p, .namedNode o | .namedNode s, .namedNode p, .literal o => some ⟨s, p, o⟩
  | _, _, _ => none

/-- An evaluator of the basic graph patterns without variables inside one graph: they have one
solution, without variables, if all their triples are in the graph. -/
def groundEvaluator : Evaluator Unit where
  solve _ _ pattern D :=
    match pattern with
    | .graph (.namedNode graph) (.bgp patterns) =>
      if patterns.all fun t => t.ground.any fun q => (graphOfIri graph, q) ∈ D.quads then
        [fun _ => none]
      else []
    | _ => []
  fresh _ number label := ⟨'_' :: ':' :: List.replicate number 'n' ++ label⟩
  arrange _ quads := quads

def Triple.pattern (q : Triple) : TriplePattern :=
  ⟨.namedNode q.subject, .namedNode q.predicate, if q.object.isLiteral then .literal q.object
    else .namedNode q.object⟩

/-- `DELETE { GRAPH g { … } } INSERT { GRAPH g { … } } WHERE { GRAPH g { … } }` in the sample graph,
without variables. -/
def sampleUpdate (delete insert required : List Triple) : Operation :=
  .deleteInsert (delete.map fun q => ⟨q.pattern, .namedNode sampleGraph⟩)
    (insert.map fun q => ⟨q.pattern, .namedNode sampleGraph⟩) none
    (.graph (.namedNode (EncodedTerm.fromNamedNode sampleGraph.iri))
      (.bgp (required.map Triple.pattern)))

def movedQuad : Triple := { sampleQuad with predicate := ⟨"<urn:q>".toList⟩ }

def sampleStore (quads : List Triple) : UpdateStore Unit where
  graphs := [sampleGraph]
  policy _ := ()
  quads := quads.map fun q => (sampleGraph, q)
  orphaned _ _ := false
  recorded := by simp

/-- An evaluation on the sample graph for a caller with all rights. -/
def sampleRun (quads : List Triple) : UpdateRun Unit Unit where
  evaluator := groundEvaluator
  phys := ()
  auth _ _ _ := .ok ()
  store := sampleStore quads
  limits := ⟨100, 100, 16⟩
  estimatedRows _ := 1

end Craqle
