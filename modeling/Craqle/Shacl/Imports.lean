import Craqle.Core.Batch
import Craqle.Lib.Acyclic

/-! # Imports of shapes graphs

Before a shapes graph is compiled, `visit_shape_graph` collects it with all graphs that it imports.
The visit keeps the path to the current graph and the graphs that are finished, so it is the search
of `Acyclicity.search` along the imports, if all of them are local and supported.

Then it succeeds exactly when no cycle of imports can be reached from the root, and collects what
can be reached, reading every graph once (`import_closure`).
-/

namespace Craqle

open Std (ExtTreeSet)
open Relation (ReflTransGen TransGen)
open Acyclicity List Fallible

inductive ImportError where
  | importCycle (graphs : List GraphId)
  | shapesGraphNotFound (graph : GraphId)
  | unsupportedRdfStarTerm (term : Text)
  | unsupportedComponent (shape component : Text)
  /-- `owl:imports object must be an IRI, got {object}` -/
  | illFormedShapes (graph : GraphId) (object : Text)
  | importsDisabled (graph : GraphId) (import_ : Text)
  | importNotLocal (graph : GraphId) (import_ : Text)
  /-- The nesting that the model allows is used up. -/
  | tooDeep
  deriving DecidableEq

def shacl (name : String) : Text := ("<http://www.w3.org/ns/shacl#" ++ name ++ ">").toList

def owlImports : Text := "<http://www.w3.org/2002/07/owl#imports>".toList

def rdfTypeText : Text := "<http://www.w3.org/1999/02/22-rdf-syntax-ns#type>".toList

def namedIri (term : EncodedTerm) : Option Text :=
  match term.text with
  | '<' :: rest => if rest.getLast? = some '>' then some rest.dropLast else none
  | _ => none

/-- The component that a quad uses and that is not supported. -/
def unsupportedComponent (quad : Triple) : Option Text :=
  if quad.predicate.text = shacl "sparql" then
    some "http://www.w3.org/ns/shacl#SPARQLConstraintComponent".toList
  else if quad.predicate.text = shacl "rule" then some "http://www.w3.org/ns/shacl#rule".toList
  else if quad.predicate.text = shacl "expression" then
    some "http://www.w3.org/ns/shacl#expression".toList
  else if "<http://www.w3.org/ns/shacl#js".toList.isPrefixOf quad.predicate.text then
    some "http://www.w3.org/ns/shacl#JSConstraint".toList
  else if quad.predicate.text = rdfTypeText ∧ (quad.object.text = shacl "ConstraintComponent" ∨
      quad.object.text = shacl "TargetType") then namedIri quad.object
  else none

def rejectUnsupportedRaw (snapshot : GraphReplicaSnapshot) : Except ImportError Unit :=
  snapshot.quads.forM fun row =>
    if "<<".toList.isPrefixOf row.quad.subject.text then
      .error (.unsupportedRdfStarTerm row.quad.subject.text)
    else if "<<".toList.isPrefixOf row.quad.object.text then
      .error (.unsupportedRdfStarTerm row.quad.object.text)
    else
      match unsupportedComponent row.quad with
      | some component => .error (.unsupportedComponent row.quad.subject.text component)
      | none => .ok ()

/-- The imported graphs, sorted and without repeats. -/
def imports (snapshot : GraphReplicaSnapshot) : Except ImportError (List Text) := do
  let imports ← (snapshot.quads.filter fun row => row.quad.predicate.text = owlImports).mapM
    fun row =>
      match namedIri row.quad.object with
      | some iri => .ok iri
      | none => .error (.illFormedShapes snapshot.graph row.quad.object.text)
  .ok (ExtTreeSet.ofList imports compare).toList

/-- The local graphs. -/
abbrev ShapesStore := List GraphReplicaSnapshot

def ShapesStore.graphSnapshot (store : ShapesStore) (graph : GraphId) :
    Option GraphReplicaSnapshot :=
  store.find? (·.graph = graph)

/-- The finished graphs and, for every graph that was read, its name. -/
structure ShapesVisit where
  graphs : List (GraphId × GraphReplicaSnapshot)
  reads : List GraphId

/-- One import of a graph: it must be allowed and local, and is visited then. -/
def visitImport (store : ShapesStore) (allowLocalImports : Bool) (graph : GraphId)
    (visitNext : GraphId → ShapesVisit → Except ImportError ShapesVisit) (visit : ShapesVisit)
    (iri : Text) : Except ImportError ShapesVisit :=
  if !allowLocalImports then .error (.importsDisabled graph iri)
  else if (store.graphSnapshot ⟨iri⟩).isNone then .error (.importNotLocal graph iri)
  else visitNext ⟨iri⟩ visit

/-- The path to the graph is a stack, with the last graph first. -/
def visitShapeGraph (store : ShapesStore) (allowLocalImports : Bool) :
    Nat → List GraphId → GraphId → ShapesVisit → Except ImportError ShapesVisit
  | 0, _, _, _ => .error .tooDeep
  | fuel + 1, stack, graph, visit =>
    if graph ∈ stack then
      .error (.importCycle (graph :: (stack.takeWhile (· ≠ graph)).reverse ++ [graph]))
    else if graph ∈ visit.graphs.map Prod.fst then .ok visit
    else
      match store.graphSnapshot graph with
      | none => .error (.shapesGraphNotFound graph)
      | some snapshot => do
        rejectUnsupportedRaw snapshot
        let imported ← imports snapshot
        let visit ← imported.foldlM
          (visitImport store allowLocalImports graph
            (visitShapeGraph store allowLocalImports fuel (graph :: stack)))
          { visit with reads := graph :: visit.reads }
        .ok { visit with graphs := (graph, snapshot) :: visit.graphs }

-- No path of the visit is longer than there are graphs, so the bound is never used up.
def materializeShapes (store : ShapesStore) (allowLocalImports : Bool) (root : GraphId) :
    Except ImportError ShapesVisit :=
  visitShapeGraph store allowLocalImports (store.length + 1) [] root ⟨[], []⟩

/-! ## The visit as a search -/

/-- What a local graph imports. -/
def ShapesStore.importsOf (store : ShapesStore) (graph : GraphId) : List GraphId :=
  match store.graphSnapshot graph with
  | none => []
  | some snapshot => ((imports snapshot).toOption.getD []).map GraphId.mk

/-- Every local graph is supported, and imports local graphs only. -/
def ShapesStore.Closed (store : ShapesStore) : Prop :=
  ∀ graph snapshot, store.graphSnapshot graph = some snapshot →
    rejectUnsupportedRaw snapshot = .ok () ∧ ∃ imported, imports snapshot = .ok imported ∧
      ∀ iri ∈ imported, (store.graphSnapshot ⟨iri⟩).isSome = true

def ShapesVisit.names (visit : ShapesVisit) : List GraphId := visit.graphs.map Prod.fst

variable {store : ShapesStore}

theorem names_bind {visited : Except ImportError ShapesVisit} {found : Except GraphId (List GraphId)}
    {visitRest : ShapesVisit → Except ImportError ShapesVisit}
    {searchRest : List GraphId → Except GraphId (List GraphId)}
    (h : visited.toOption.map ShapesVisit.names = found.toOption)
    (hrest : ∀ visit, (visitRest visit).toOption.map ShapesVisit.names =
      (searchRest visit.names).toOption) :
    (visited >>= visitRest).toOption.map ShapesVisit.names = (found >>= searchRest).toOption := by
  cases visited with
  | error e =>
    cases found with
    | error e => rfl
    | ok names => cases h
  | ok visit =>
    cases found with
    | error e => cases h
    | ok names =>
      cases h
      exact hrest visit

theorem names_foldlM (graph : GraphId)
    (visitNext : GraphId → ShapesVisit → Except ImportError ShapesVisit)
    (searchNext : List GraphId → GraphId → Except GraphId (List GraphId))
    {iris : List Text} (hlocal : ∀ iri ∈ iris, (store.graphSnapshot ⟨iri⟩).isSome = true)
    (h : ∀ iri ∈ iris, ∀ visit, (visitNext ⟨iri⟩ visit).toOption.map ShapesVisit.names =
      (searchNext visit.names ⟨iri⟩).toOption) (visit : ShapesVisit) :
    (iris.foldlM (visitImport store true graph visitNext) visit).toOption.map ShapesVisit.names =
      ((iris.map GraphId.mk).foldlM searchNext visit.names).toOption := by
  induction iris generalizing visit with
  | nil => rfl
  | cons iri iris ih =>
    obtain ⟨hiri, hlocal⟩ := forall_mem_cons.mp hlocal
    obtain ⟨hfirst, h⟩ := forall_mem_cons.mp h
    have hvisit : visitImport store true graph visitNext visit iri = visitNext ⟨iri⟩ visit := by
      simp [visitImport, Option.isSome_iff_ne_none.mp hiri]
    rw [map_cons, foldlM_cons, foldlM_cons, hvisit]
    exact names_bind (hfirst visit) (ih hlocal h)

/-- The visit finishes the graphs that the search finds. -/
theorem names_visitShapeGraph (h : store.Closed) {graph : GraphId}
    (hgraph : (store.graphSnapshot graph).isSome = true) (fuel : Nat) (stack : List GraphId)
    (visit : ShapesVisit) :
    (visitShapeGraph store true fuel stack graph visit).toOption.map ShapesVisit.names =
      (search store.importsOf fuel stack graph visit.names).toOption := by
  induction fuel generalizing stack graph visit with
  | zero => rfl
  | succ fuel ih =>
    obtain ⟨snapshot, hsnapshot⟩ := Option.isSome_iff_exists.mp hgraph
    obtain ⟨hraw, imported, himports, hlocal⟩ := h graph snapshot hsnapshot
    have hsucc : store.importsOf graph = imported.map GraphId.mk := by
      simp [ShapesStore.importsOf, hsnapshot, himports, Except.toOption]
    have hfold := names_foldlM graph (visitShapeGraph store true fuel (graph :: stack))
      (fun complete next => search store.importsOf fuel (graph :: stack) next complete) hlocal
      (fun iri hiri visit => ih (hlocal iri hiri) (graph :: stack) visit)
      ⟨visit.graphs, graph :: visit.reads⟩
    rw [visitShapeGraph, search, hsnapshot, hsucc]
    show Option.map _ (Except.toOption (if _ then _ else if graph ∈ visit.names then _ else _)) = _
    split
    · rfl
    split
    · rfl
    · simp only [hraw, himports]
      exact names_bind hfold fun _ => rfl

/-- The graphs that were read are the finished ones and those on the path. -/
theorem reads_visitShapeGraph {allow : Bool} {fuel : Nat} {stack : List GraphId} {graph : GraphId}
    {visit visit' : ShapesVisit} (hreads : visit.reads.Perm (visit.names ++ stack))
    (h : visitShapeGraph store allow fuel stack graph visit = .ok visit') :
    visit'.reads.Perm (visit'.names ++ stack) := by
  induction fuel generalizing stack graph visit visit' with
  | zero => cases h
  | succ fuel ih =>
    rw [visitShapeGraph] at h
    split at h
    · cases h
    split at h
    · cases h
      exact hreads
    split at h
    · cases h
    obtain ⟨-, -, h⟩ := Fallible.bind_eq_ok.mp h
    obtain ⟨imported, -, h⟩ := bind_eq_ok.mp h
    obtain ⟨after, hfold, h⟩ := bind_eq_ok.mp h
    cases h
    have hafter := foldlM_preserves
      (P := fun visit : ShapesVisit => visit.reads.Perm (visit.names ++ graph :: stack))
      (fun iri _ before next hbefore hstep => by
        unfold visitImport at hstep
        split_ifs at hstep
        exact ih hbefore hstep)
      hfold ((hreads.cons graph).trans perm_middle.symm)
    exact hafter.trans perm_middle

/-- **Import closure.** If the local graphs are supported and import local graphs only, the visit of
a local root succeeds exactly when no cycle of imports can be reached from it. It collects then the
graphs that can be reached, and reads each of them once. -/
theorem import_closure (h : store.Closed) {root : GraphId}
    (hroot : (store.graphSnapshot root).isSome = true) :
    ((∃ visit, materializeShapes store true root = .ok visit) ↔
      ¬ ∃ g, ReflTransGen (fun a b => b ∈ store.importsOf a) root g ∧
        TransGen (fun a b => b ∈ store.importsOf a) g g) ∧
    ∀ visit, materializeShapes store true root = .ok visit →
      (∀ g, g ∈ visit.names ↔ ReflTransGen (fun a b => b ∈ store.importsOf a) root g) ∧
        visit.names.Nodup ∧ visit.reads.Perm visit.names := by
  have hlocal : ∀ graph, (store.graphSnapshot graph).isSome = true → graph ∈ store.map (·.graph) := by
    intro graph hgraph
    obtain ⟨snapshot, hfind⟩ := Option.isSome_iff_exists.mp hgraph
    exact mem_map.mpr ⟨snapshot, mem_of_find?_eq_some hfind, by simpa using find?_some hfind⟩
  have hnodes : ∀ a, ∀ b ∈ store.importsOf a, b ∈ store.map (·.graph) := by
    intro a b hb
    unfold ShapesStore.importsOf at hb
    split at hb
    · cases hb
    · rename_i snapshot hfind
      obtain ⟨-, imported, himports, htargets⟩ := h a snapshot hfind
      obtain ⟨iri, hiri, rfl⟩ := mem_map.mp hb
      rw [himports] at hiri
      exact hlocal _ (htargets iri hiri)
  have hfuel : (store.map (·.graph)).length < store.length + 1 := by simp
  obtain ⟨hiff, hfound⟩ := search_eq_ok hnodes (hlocal root hroot) hfuel
  have hnames := names_visitShapeGraph h hroot (store.length + 1) [] ⟨[], []⟩
  change (materializeShapes store true root).toOption.map _ = Except.toOption
    (search store.importsOf (store.length + 1) [] root []) at hnames
  have hvisits : ∀ found, search store.importsOf (store.length + 1) [] root [] = .ok found ↔
      ∃ visit, materializeShapes store true root = .ok visit ∧ visit.names = found := by
    intro found
    rw [← toOption_eq_some, ← hnames, Option.map_eq_some_iff]
    simp only [toOption_eq_some]
  refine ⟨?_, fun visit hvisit => ?_⟩
  · rw [← hiff]
    simp [hvisits]
  · obtain ⟨hnodup, hmem⟩ := hfound _ ((hvisits _).mpr ⟨visit, hvisit, rfl⟩)
    refine ⟨hmem, hnodup, ?_⟩
    simpa using reads_visitShapeGraph (.refl _) hvisit

/-- A root that imports two graphs, one of which imports the other. -/
def sharedImport : ShapesStore :=
  [⟨⟨['r']⟩, .new, [⟨⟨⟨[]⟩, ⟨owlImports⟩, ⟨"<a>".toList⟩⟩, []⟩, ⟨⟨⟨[]⟩, ⟨owlImports⟩, ⟨"<b>".toList⟩⟩, []⟩]⟩,
    ⟨⟨['a']⟩, .new, [⟨⟨⟨[]⟩, ⟨owlImports⟩, ⟨"<b>".toList⟩⟩, []⟩]⟩, ⟨⟨['b']⟩, .new, []⟩]

theorem import_closure_shared :
    ∃ visit, materializeShapes sharedImport true ⟨['r']⟩ = .ok visit ∧
      visit.names = [⟨['r']⟩, ⟨['a']⟩, ⟨['b']⟩] ∧ visit.reads.Perm visit.names := by
  have hclosed : sharedImport.Closed := by
    intro graph snapshot hfind
    have hmem := mem_of_find?_eq_some hfind
    simp only [sharedImport, mem_cons, not_mem_nil, or_false] at hmem
    rcases hmem with rfl | rfl | rfl
    · exact ⟨by decide +kernel, [['a'], ['b']], by decide +kernel, by decide +kernel⟩
    · exact ⟨by decide +kernel, [['b']], by decide +kernel, by decide +kernel⟩
    · exact ⟨by decide +kernel, [], by decide +kernel, by decide +kernel⟩
  have hroot : (sharedImport.graphSnapshot ⟨['r']⟩).isSome = true := by decide +kernel
  obtain ⟨-, hvisit⟩ := import_closure hclosed hroot
  exact ⟨_, rfl, by decide +kernel, (hvisit _ rfl).2.2⟩

end Craqle
