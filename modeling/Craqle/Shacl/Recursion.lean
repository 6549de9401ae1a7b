import Craqle.Shacl.Denote

/-! # Recursive shapes

A shapes graph is checked for recursion before it is compiled: `rejectRecursiveShapes` collects the
references between shapes, those in lists included, and searches for a cycle. The evaluator relies
on the check in two ways. It never asks for a verdict that is being evaluated
(`ShaclError.cyclicShapeEvaluation`), and the nesting of its calls is bounded by the number of
shapes, whatever the data are.

Both follow when the references that the evaluator follows have no cycle (`evaluateShape_keeps`).
The check follows the same references but for one kind: for disjoint qualified value shapes the
evaluator also evaluates the siblings, which are found through the parent of a property shape and
may lead back to it.
-/

namespace Craqle

open Std (ExtTreeMap ExtTreeSet)
open Acyclicity List Fallible

/-! ## The check -/

inductive ShapesPredicate where
  | node
  | not
  | qualifiedValueShape
  | property
  | and
  | or
  | xone
  | first
  | rest
  | other (iri : String)
  deriving DecidableEq

inductive ShapesObject where
  /-- An IRI or a blank node, by its text. -/
  | node (text : String)
  | literal (text : String)
  | triple (text : String)
  deriving DecidableEq

structure ShapesTriple where
  subject : String
  predicate : ShapesPredicate
  object : ShapesObject
  deriving DecidableEq

abbrev ShapeEdges := ExtTreeMap String (ExtTreeSet String compare) compare

/-- The references of a shapes graph, as one pass over its triples finds them. -/
structure ShapeReferences where
  edges : ShapeEdges
  listFirst : ExtTreeMap String String compare
  listRest : ExtTreeMap String String compare
  listReferences : List (String × String)

def ShapeReferences.empty : ShapeReferences := ⟨∅, ∅, ∅, []⟩

def addEdge (edges : ShapeEdges) (shape nested : String) : ShapeEdges :=
  edges.insert shape ((edges.getD shape ∅).insert nested)

def collectReference (refs : ShapeReferences) (triple : ShapesTriple) :
    Except ShaclError ShapeReferences :=
  match triple.object with
  | .literal _ => .ok refs
  | .triple text => .error (.unsupportedRdfStarTerm text)
  | .node object =>
    match triple.predicate with
    | .node | .not | .qualifiedValueShape | .property =>
      .ok { refs with edges := addEdge refs.edges triple.subject object }
    | .and | .or | .xone =>
      .ok { refs with listReferences := refs.listReferences ++ [(triple.subject, object)] }
    | .first => .ok { refs with listFirst := refs.listFirst.insert triple.subject object }
    | .rest => .ok { refs with listRest := refs.listRest.insert triple.subject object }
    | .other _ => .ok refs

def rdfNil : String := "<http://www.w3.org/1999/02/22-rdf-syntax-ns#nil>"

/-- Follow a list from a node, with an edge to every member, up to a node that is visited twice. -/
def collectList (refs : ShapeReferences) (shape : String) :
    Nat → List String → String → ShapeEdges → ShapeEdges
  | 0, _, _, edges => edges
  | fuel + 1, visited, list, edges =>
    if list = rdfNil ∨ list ∈ visited then edges
    else
      match refs.listFirst[list]? with
      | none => edges
      | some referenced =>
        match refs.listRest[list]? with
        | none => addEdge edges shape referenced
        | some next =>
          collectList refs shape fuel (list :: visited) next (addEdge edges shape referenced)

def shapeEdges (graph : List ShapesTriple) (refs : ShapeReferences) : ShapeEdges :=
  refs.listReferences.foldl
    (fun edges reference =>
      collectList refs reference.1 (graph.length + 1) [] reference.2 edges) refs.edges

def nestedShapes (edges : ShapeEdges) (shape : String) : List String :=
  (edges.getD shape ∅).toList

/-- The shapes that a search through the edges can meet. -/
def shapesOfEdges (edges : ShapeEdges) : List String :=
  edges.keys ++ edges.keys.flatMap (nestedShapes edges)

-- No path of the search is longer than there are shapes to meet, so the bound is never used up.
def rejectRecursiveShapes (graph : List ShapesTriple) : Except ShaclError Unit := do
  let refs ← graph.foldlM collectReference .empty
  let edges := shapeEdges graph refs
  let _ ← (searchAll (nestedShapes edges) ((shapesOfEdges edges).length + 1) edges.keys).mapError
    .unsupportedRecursiveShape
  .ok ()

/-! ### What the check collects -/

def ShapesPredicate.isReference : ShapesPredicate → Bool
  | .node | .not | .qualifiedValueShape | .property => true
  | _ => false

def ShapesPredicate.isLogical : ShapesPredicate → Bool
  | .and | .or | .xone => true
  | _ => false

theorem mem_nestedShapes {edges : ShapeEdges} {x y : String} :
    y ∈ nestedShapes edges x ↔ y ∈ edges.getD x ∅ :=
  ExtTreeSet.mem_toList

theorem mem_addEdge {edges : ShapeEdges} {shape nested x y : String} :
    y ∈ (addEdge edges shape nested).getD x ∅ ↔
      x = shape ∧ y = nested ∨ y ∈ edges.getD x ∅ := by
  rw [addEdge, ExtTreeMap.getD_insert]
  by_cases hx : compare shape x = .eq
  · rw [if_pos hx]
    obtain rfl := Std.LawfulEqCmp.compare_eq_iff_eq.mp hx
    rw [ExtTreeSet.mem_insert, Std.LawfulEqCmp.compare_eq_iff_eq, eq_comm]
    simp
  · rw [if_neg hx]
    have hne : ¬ x = shape := fun h => hx (Std.LawfulEqCmp.compare_eq_iff_eq.mpr h.symm)
    simp [hne]

variable {graph : List ShapesTriple} {t : ShapesTriple} {want : ShapesPredicate → Bool}
  {S S' : String → String → Prop} {p : ShapesPredicate}
  {links : ExtTreeMap String String compare}

/-- A relation has the links of the triples with some predicates. -/
def Gathers (want : ShapesPredicate → Bool) (graph : List ShapesTriple)
    (S : String → String → Prop) : Prop :=
  ∀ x y, S x y ↔ ∃ p, want p = true ∧ ⟨x, p, .node y⟩ ∈ graph

theorem Gathers.skip (h : Gathers want graph S)
    (hskip : ∀ y, t.object = .node y → want t.predicate = false) :
    Gathers want (graph ++ [t]) S := by
  intro x y
  rw [h x y]
  refine exists_congr fun p => and_congr_right fun hp => ?_
  rw [mem_append, mem_singleton, or_iff_left]
  rintro rfl
  rw [hskip y rfl] at hp
  cases hp

theorem Gathers.add (h : Gathers want graph S) {s o : String} (hp : want p = true)
    (hS : ∀ x y, S' x y ↔ x = s ∧ y = o ∨ S x y) :
    Gathers want (graph ++ [⟨s, p, .node o⟩]) S' := by
  intro x y
  rw [hS, h x y]
  constructor
  · rintro (⟨rfl, rfl⟩ | ⟨q, hq, hmem⟩)
    · exact ⟨p, hp, mem_concat_self⟩
    · exact ⟨q, hq, mem_append_left _ hmem⟩
  · rintro ⟨q, hq, hmem⟩
    rcases mem_append.mp hmem with hmem | hmem
    · exact .inr ⟨q, hq, hmem⟩
    · cases mem_singleton.mp hmem
      exact .inl ⟨rfl, rfl⟩

structure LinksOf (p : ShapesPredicate) (graph : List ShapesTriple)
    (links : ExtTreeMap String String compare) : Prop where
  sound : ∀ x y, links[x]? = some y → ⟨x, p, .node y⟩ ∈ graph
  present : ∀ x y, ⟨x, p, .node y⟩ ∈ graph → ∃ y', links[x]? = some y'

theorem LinksOf.skip (h : LinksOf p graph links)
    (hskip : ∀ y, t.object = .node y → t.predicate ≠ p) : LinksOf p (graph ++ [t]) links := by
  refine ⟨fun x y hget => mem_append_left _ (h.sound x y hget), fun x y hmem => ?_⟩
  rcases mem_append.mp hmem with hmem | hmem
  · exact h.present x y hmem
  · cases mem_singleton.mp hmem
    exact absurd rfl (hskip y rfl)

theorem LinksOf.add (h : LinksOf p graph links) {s o : String} :
    LinksOf p (graph ++ [⟨s, p, .node o⟩]) (links.insert s o) := by
  constructor
  · intro x y hget
    rw [Ordered.getElem?_insert] at hget
    split at hget
    · next hx =>
      cases hget
      rw [hx]
      exact mem_concat_self
    · exact mem_append_left _ (h.sound x y hget)
  · intro x y hmem
    rw [Ordered.getElem?_insert]
    split
    · exact ⟨o, rfl⟩
    · next hx =>
      rcases mem_append.mp hmem with hmem | hmem
      · exact h.present x y hmem
      · cases mem_singleton.mp hmem
        exact absurd rfl hx

/-- With one link for a subject, the map has it. -/
theorem LinksOf.get (h : LinksOf p graph links) {x y : String} (hmem : ⟨x, p, .node y⟩ ∈ graph)
    (honly : ∀ z, ⟨x, p, .node z⟩ ∈ graph → z = y) : links[x]? = some y := by
  obtain ⟨z, hz⟩ := h.present x y hmem
  rw [hz, honly z (h.sound x z hz)]

/-- The collected references are those of the triples that were read. -/
structure ReferencesOf (graph : List ShapesTriple) (refs : ShapeReferences) : Prop where
  edges : Gathers ShapesPredicate.isReference graph fun x y => y ∈ refs.edges.getD x ∅
  logical : Gathers ShapesPredicate.isLogical graph fun x l => (x, l) ∈ refs.listReferences
  first : LinksOf .first graph refs.listFirst
  rest : LinksOf .rest graph refs.listRest

theorem referencesOf_empty : ReferencesOf [] .empty := by
  refine ⟨?_, ?_, ⟨?_, ?_⟩, ⟨?_, ?_⟩⟩ <;> simp [ShapeReferences.empty, Gathers]

theorem ReferencesOf.step {graph : List ShapesTriple} {refs refs' : ShapeReferences}
    {t : ShapesTriple} (h : ReferencesOf graph refs) (hrun : collectReference refs t = .ok refs') :
    ReferencesOf (graph ++ [t]) refs' := by
  obtain ⟨s, p, o⟩ := t
  cases o with
  | literal text =>
    cases hrun
    exact ⟨h.edges.skip (by simp), h.logical.skip (by simp), h.first.skip (by simp),
      h.rest.skip (by simp)⟩
  | triple text => cases hrun
  | node o =>
    -- every other collection passes over the triple
    cases p with
    | node | not | qualifiedValueShape | property =>
      cases hrun
      exact ⟨h.edges.add rfl fun x y => mem_addEdge, h.logical.skip fun _ _ => rfl,
        h.first.skip (by simp), h.rest.skip (by simp)⟩
    | and | or | xone =>
      cases hrun
      exact ⟨h.edges.skip fun _ _ => rfl, h.logical.add rfl fun x l => by simp [or_comm],
        h.first.skip (by simp), h.rest.skip (by simp)⟩
    | first =>
      cases hrun
      exact ⟨h.edges.skip fun _ _ => rfl, h.logical.skip fun _ _ => rfl, h.first.add,
        h.rest.skip (by simp)⟩
    | rest =>
      cases hrun
      exact ⟨h.edges.skip fun _ _ => rfl, h.logical.skip fun _ _ => rfl, h.first.skip (by simp),
        h.rest.add⟩
    | other iri =>
      cases hrun
      exact ⟨h.edges.skip fun _ _ => rfl, h.logical.skip fun _ _ => rfl, h.first.skip (by simp),
        h.rest.skip (by simp)⟩

theorem ReferencesOf.run {graph rest : List ShapesTriple} {refs refs' : ShapeReferences}
    (h : ReferencesOf graph refs) (hrun : rest.foldlM collectReference refs = .ok refs') :
    ReferencesOf (graph ++ rest) refs' := by
  induction rest using reverseRecOn generalizing refs' with
  | nil =>
    cases hrun
    rwa [append_nil]
  | append_singleton rest t ih =>
    obtain ⟨mid, hmid, hstep⟩ := foldlM_concat_eq_ok.mp hrun
    rw [← append_assoc]
    exact (ih hmid).step hstep

/-! ### Lists -/

inductive RdfList (graph : List ShapesTriple) : String → List String → Prop where
  | nil : RdfList graph rdfNil []
  | cons {list member next : String} {members : List String} (notNil : list ≠ rdfNil)
      (first : ⟨list, .first, .node member⟩ ∈ graph)
      (onlyFirst : ∀ m, ⟨list, .first, .node m⟩ ∈ graph → m = member)
      (rest : ⟨list, .rest, .node next⟩ ∈ graph)
      (onlyRest : ∀ n, ⟨list, .rest, .node n⟩ ∈ graph → n = next)
      (tail : RdfList graph next members) : RdfList graph list (member :: members)

section Lists

variable {refs : ShapeReferences} {list : String} {members : List String}

theorem RdfList.unique (h : RdfList graph list members) {members' : List String}
    (h' : RdfList graph list members') : members = members' := by
  induction h generalizing members' with
  | nil =>
    cases h' with
    | nil => rfl
    | cons notNil => exact absurd rfl notNil
  | cons notNil first onlyFirst rest onlyRest _ ih =>
    cases h' with
    | nil => exact absurd rfl notNil
    | cons _ first' _ rest' _ tail' =>
      obtain rfl := onlyFirst _ first'
      obtain rfl := onlyRest _ rest'
      rw [ih tail']

theorem RdfList.exists_nodes (h : RdfList graph list members) :
    ∃ nodes : List String, nodes.length = members.length ∧ nodes.Nodup ∧
      ∀ n ∈ nodes, (∃ m, ⟨n, .first, .node m⟩ ∈ graph) ∧
        ∃ ms, RdfList graph n ms ∧ ms.length ≤ members.length := by
  induction h with
  | nil => exact ⟨[], rfl, nodup_nil, by simp⟩
  | @cons list member next members notNil first onlyFirst rest onlyRest tail ih =>
    obtain ⟨nodes, hlength, hnodup, hnodes⟩ := ih
    have hself : RdfList graph list (member :: members) :=
      .cons notNil first onlyFirst rest onlyRest tail
    refine ⟨list :: nodes, by simp [hlength], nodup_cons.mpr ⟨fun hin => ?_, hnodup⟩, ?_⟩
    · obtain ⟨-, ms, hms, hle⟩ := hnodes list hin
      have heq := hself.unique hms
      rw [← heq, length_cons] at hle
      omega
    · refine forall_mem_cons.mpr ⟨⟨⟨member, first⟩, _, hself, Nat.le_refl _⟩, fun n hn => ?_⟩
      obtain ⟨hfirst, ms, hms, hle⟩ := hnodes n hn
      exact ⟨hfirst, ms, hms, by rw [length_cons]; omega⟩

theorem RdfList.length_le (h : RdfList graph list members) : members.length ≤ graph.length := by
  obtain ⟨nodes, hlength, hnodup, hnodes⟩ := h.exists_nodes
  have hsub : nodes ⊆ graph.map ShapesTriple.subject := by
    intro n hn
    obtain ⟨⟨m, hm⟩, -⟩ := hnodes n hn
    exact mem_map.mpr ⟨_, hm, rfl⟩
  have hle := (hnodup.subperm hsub).length_le
  rwa [length_map, hlength] at hle

variable {edges : ShapeEdges} {x y : String}

theorem collectList_mono {shape : String} {fuel : Nat} {visited : List String}
    (h : y ∈ edges.getD x ∅) :
    y ∈ (collectList refs shape fuel visited list edges).getD x ∅ := by
  induction fuel generalizing visited list edges with
  | zero => exact h
  | succ fuel ih =>
    have hadd : ∀ referenced, y ∈ (addEdge edges shape referenced).getD x ∅ :=
      fun referenced => mem_addEdge.mpr (.inr h)
    rw [collectList]
    split
    · exact h
    split
    · exact h
    split
    · exact hadd _
    · exact ih (hadd _)

theorem mem_collectList (hrefs : ReferencesOf graph refs) {shape : String} {fuel : Nat}
    {visited : List String} (hlist : RdfList graph list members)
    (hvisited : ∀ v ∈ visited, ∃ ms, RdfList graph v ms ∧ members.length < ms.length)
    (hfuel : members.length < fuel) :
    ∀ m ∈ members, m ∈ (collectList refs shape fuel visited list edges).getD shape ∅ := by
  induction hlist generalizing fuel visited edges with
  | nil => simp
  | @cons list member next members notNil first onlyFirst rest onlyRest tail ih =>
    obtain ⟨fuel, rfl⟩ : ∃ n, fuel = n + 1 := ⟨fuel - 1, by omega⟩
    have hself : RdfList graph list (member :: members) :=
      .cons notNil first onlyFirst rest onlyRest tail
    have hnew : list ∉ visited := by
      intro hin
      obtain ⟨ms, hms, hlt⟩ := hvisited list hin
      rw [← hself.unique hms] at hlt
      omega
    have hgo : ¬ (list = rdfNil ∨ list ∈ visited) := not_or.mpr ⟨notNil, hnew⟩
    rw [collectList, if_neg hgo, hrefs.first.get first onlyFirst]
    simp only [hrefs.rest.get rest onlyRest]
    refine forall_mem_cons.mpr ⟨collectList_mono (mem_addEdge.mpr (.inl ⟨rfl, rfl⟩)), ?_⟩
    rw [length_cons] at hfuel
    refine ih (forall_mem_cons.mpr ⟨⟨_, hself, by simp⟩, fun v hv => ?_⟩) (by omega)
    obtain ⟨ms, hms, hlt⟩ := hvisited v hv
    exact ⟨ms, hms, by rw [length_cons] at hlt; omega⟩

/-! ### The edges of a shapes graph -/

theorem shapeEdges_mono {references : List (String × String)} (h : y ∈ edges.getD x ∅) :
    y ∈ (references.foldl (fun edges reference => collectList refs reference.1 (graph.length + 1) []
      reference.2 edges) edges).getD x ∅ := by
  induction references generalizing edges with
  | nil => exact h
  | cons reference references ih => exact ih (collectList_mono h)

theorem edge_of_reference (hrefs : ReferencesOf graph refs) {p : ShapesPredicate}
    (hp : p.isReference = true) (hmem : ⟨x, p, .node y⟩ ∈ graph) :
    y ∈ nestedShapes (shapeEdges graph refs) x :=
  mem_nestedShapes.mpr (shapeEdges_mono ((hrefs.edges x y).mpr ⟨p, hp, hmem⟩))

theorem edge_of_list (hrefs : ReferencesOf graph refs) {p : ShapesPredicate}
    (hp : p.isLogical = true) (hmem : ⟨x, p, .node list⟩ ∈ graph)
    (hlist : RdfList graph list members) (hy : y ∈ members) :
    y ∈ nestedShapes (shapeEdges graph refs) x := by
  have hlength := hlist.length_le
  obtain ⟨before, after, hsplit⟩ := append_of_mem ((hrefs.logical x list).mpr ⟨p, hp, hmem⟩)
  rw [mem_nestedShapes, shapeEdges, hsplit, foldl_append, foldl_cons]
  exact shapeEdges_mono (mem_collectList hrefs hlist (by simp) (by omega) y hy)

theorem mem_keys_of_edge (h : y ∈ nestedShapes edges x) :
    x ∈ edges.keys := by
  rw [ExtTreeMap.mem_keys]
  by_contra hx
  have hempty : edges.getD x ∅ = ∅ := ExtTreeMap.getD_eq_fallback hx
  rw [mem_nestedShapes, hempty] at h
  simp at h

/-- The check accepts exactly the graphs whose references have no cycle. -/
theorem rejectRecursiveShapes_eq_ok (hrun : graph.foldlM collectReference .empty = .ok refs) :
    rejectRecursiveShapes graph = .ok () ↔
      Acyclic fun x y => y ∈ nestedShapes (shapeEdges graph refs) x := by
  let edges := shapeEdges graph refs
  have hobject : ∀ x, ∀ y ∈ nestedShapes edges x, y ∈ shapesOfEdges edges := fun x y hy =>
    mem_append_right _ (mem_flatMap.mpr ⟨x, mem_keys_of_edge hy, hy⟩)
  have hkeys : ∀ x ∈ edges.keys, x ∈ shapesOfEdges edges := fun x hx => mem_append_left _ hx
  have hsearch := searchAll_eq_ok hobject hkeys (fun x y hy => mem_keys_of_edge hy)
    (Nat.lt_succ_self _)
  rw [← hsearch, rejectRecursiveShapes, bind_eq_ok]
  constructor
  · rintro ⟨refs', hrun', hcheck⟩
    cases hrun.symm.trans hrun'
    obtain ⟨complete, hsearched, -⟩ := bind_eq_ok.mp hcheck
    exact ⟨complete, mapError_eq_ok.mp hsearched⟩
  · rintro ⟨complete, hsearched⟩
    exact ⟨refs, hrun, bind_eq_ok.mpr ⟨complete, mapError_eq_ok.mpr hsearched, rfl⟩⟩

end Lists

end Craqle
