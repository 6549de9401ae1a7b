import Craqle.Query.Update

/-! # What an update may write and what it depends on

Every change that an evaluation returns was authorized (`Writable` of `evaluateUpdate_eq_ok`). The
rest of the module compares two stores that agree on all graphs that the caller may read or write.
Hidden graphs reach an evaluation in two places only: the collection of the readable graphs asks the
authorizer about every graph, and `CLEAR` and `DROP` of all graphs authorize every graph.

Two runs of a request that has neither of these return the same changes up to their order, or both
fail (`update_transfer`, used in both directions).
-/

namespace Craqle

open List QuadTemplate

/-! ## Agreement -/

section Agreement

variable {Policy : Type} [Inhabited Policy] (auth : Authorizer Policy)

/-- The caller may read or write a graph. A graph without a record has the default policy. -/
def MayAccess (store : UpdateStore Policy) (graph : GraphId) : Prop :=
  mayRead auth store graph = true ∨ authorizeWrite auth store graph = .ok ()

structure SameGraph (store store' : UpdateStore Policy) (graph : GraphId) : Prop where
  record : store.graphPolicy graph = store'.graphPolicy graph
  quads : (store.quads.filter fun q => q.1 = graph).Perm (store'.quads.filter fun q => q.1 = graph)
  hidden : ∀ term, store.orphaned graph term = store'.orphaned graph term

/-- Two stores agree on all graphs that the caller may read or write. -/
def Agree (store store' : UpdateStore Policy) : Prop :=
  ∀ graph, MayAccess auth store graph ∨ MayAccess auth store' graph → SameGraph store store' graph

variable {auth} {store store' : UpdateStore Policy} {graph : GraphId}

omit [Inhabited Policy] in
theorem SameGraph.symm (h : SameGraph store store' graph) : SameGraph store' store graph :=
  ⟨h.record.symm, h.quads.symm, fun term => (h.hidden term).symm⟩

theorem Agree.symm (h : Agree auth store store') : Agree auth store' store :=
  fun graph haccess => (h graph haccess.symm).symm

omit [Inhabited Policy] in
theorem mayRead_eq (graph : GraphId) : mayRead auth store graph =
    (store.graphPolicy graph).any fun policy => (auth graph policy .read).isOk := by
  by_cases hgraph : graph ∈ store.graphs <;> simp [mayRead, UpdateStore.graphPolicy, hgraph]

theorem authorizeRead_eq_ok : authorizeRead auth store graph = .ok () ↔
    mayRead auth store graph = true := by
  rw [mayRead_eq, authorizeRead, authorizeUpdateGraph]
  match store.graphPolicy graph with
  | none => simp
  | some policy =>
    cases hread : auth graph policy .read <;>
      simp [hread, Except.mapError, Except.isOk, Except.toBool]

/-- The right to write depends on the policy alone. -/
theorem authorizeWrite_eq_ok : authorizeWrite auth store graph = .ok () ↔
    auth graph ((store.graphPolicy graph).getD default) .write = .ok () := by
  rw [authorizeWrite, authorizeUpdateGraph]
  match store.graphPolicy graph with
  | none =>
    cases hwrite : auth graph default .write <;> simp [hwrite, Except.mapError]
  | some policy =>
    cases hwrite : auth graph policy .write <;> simp [hwrite, Except.mapError]

variable (h : Agree auth store store')
include h

theorem Agree.mayRead_iff (graph : GraphId) :
    mayRead auth store graph = true ↔ mayRead auth store' graph = true := by
  constructor
  · intro hread
    rw [mayRead_eq, ← (h graph (.inl (.inl hread))).record, ← mayRead_eq]
    exact hread
  · intro hread
    rw [mayRead_eq, (h graph (.inr (.inl hread))).record, ← mayRead_eq]
    exact hread

theorem Agree.authorizeRead (hread : Craqle.authorizeRead auth store graph = .ok ()) :
    Craqle.authorizeRead auth store' graph = .ok () :=
  authorizeRead_eq_ok.mpr ((h.mayRead_iff graph).mp (authorizeRead_eq_ok.mp hread))

theorem Agree.authorizeWrite (hwrite : Craqle.authorizeWrite auth store graph = .ok ()) :
    Craqle.authorizeWrite auth store' graph = .ok () := by
  have hsame := h graph (.inl (.inr hwrite))
  rw [authorizeWrite_eq_ok] at hwrite ⊢
  rwa [← hsame.record]

/-- **The caller sees the same** in two stores that agree. -/
theorem Agree.visible :
    store.visible (store.graphs.filter (mayRead auth store)) =
      store'.visible (store'.graphs.filter (mayRead auth store')) := by
  have hgraph : ∀ {store store' : UpdateStore Policy}, Agree auth store store' → ∀ graph,
      graph ∈ store.graphs ∧ mayRead auth store graph = true →
        graph ∈ store'.graphs ∧ mayRead auth store' graph = true := by
    intro store store' h graph ⟨_, hread⟩
    have hread' := (h.mayRead_iff graph).mp hread
    exact ⟨by simpa [mayRead] using (Bool.and_eq_true_iff.mp hread').1, hread'⟩
  have hquad : ∀ {store store' : UpdateStore Policy}, Agree auth store store' → ∀ q : NamedQuad,
      q ∈ (store.visible (store.graphs.filter (mayRead auth store))).quads →
        q ∈ (store'.visible (store'.graphs.filter (mayRead auth store'))).quads := by
    intro store store' h q hq
    simp only [UpdateStore.visible, mem_toFinset, mem_filter, decide_eq_true_eq] at hq ⊢
    obtain ⟨hmem, -, hread, hsubject, hobject⟩ := hq
    have hsame := h q.1 (.inl (.inl hread.2))
    have hread' := hgraph h q.1 hread
    have hmem' : q ∈ store'.quads.filter fun r => r.1 = q.1 :=
      hsame.quads.mem_iff.mp (mem_filter.mpr ⟨hmem, by simp⟩)
    refine ⟨(mem_filter.mp hmem').1, hread'.1, hread', ?_, ?_⟩
    · rwa [← hsame.hidden]
    · rwa [← hsame.hidden]
  have hgraphs : (store.visible (store.graphs.filter (mayRead auth store))).graphs =
      (store'.visible (store'.graphs.filter (mayRead auth store'))).graphs := by
    ext graph
    simp only [UpdateStore.visible, mem_toFinset, mem_filter, decide_eq_true_eq]
    exact ⟨fun hg => ⟨(hgraph h graph hg.2).1, hgraph h graph hg.2⟩,
      fun hg => ⟨(hgraph h.symm graph hg.2).1, hgraph h.symm graph hg.2⟩⟩
  have hquads : (store.visible (store.graphs.filter (mayRead auth store))).quads =
      (store'.visible (store'.graphs.filter (mayRead auth store'))).quads :=
    Finset.ext fun q => ⟨hquad h q, hquad h.symm q⟩
  rw [RdfDataset.mk.injEq]
  exact ⟨hgraphs, hquads⟩

end Agreement

/-! ## The walk -/

section Walk

open Fallible (andThen_mono)

variable {check check' : GraphId → Except UpdateFailure Unit}
  (hcheck : ∀ graph, check graph = .ok () → check' graph = .ok ())

include hcheck

set_option linter.unusedSectionVars false in
mutual

/-- A pattern that passes one check passes every check that allows as much. -/
theorem authorizeUpdatePattern_mono : ∀ pattern : Pattern,
    authorizeUpdatePattern check pattern = .ok () → authorizeUpdatePattern check' pattern = .ok ()
  | .bgp _ | .path _ _ _ | .values _ _ => fun _ => rfl
  | .join left right | .union left right | .minus left right =>
    andThen_mono (authorizeUpdatePattern_mono left) (authorizeUpdatePattern_mono right)
  | .leftJoin left right expression =>
    andThen_mono (authorizeUpdatePattern_mono left)
      (andThen_mono (authorizeUpdatePattern_mono right) (authorizeOptional_mono expression))
  | .filter expr inner =>
    andThen_mono (authorizeUpdatePattern_mono inner) (authorizeUpdateExpression_mono expr)
  | .graph (.namedNode graph) inner =>
    andThen_mono (hcheck (graphOfIri graph)) (authorizeUpdatePattern_mono inner)
  | .graph (.var _) inner => authorizeUpdatePattern_mono inner
  | .extend inner _ expression =>
    andThen_mono (authorizeUpdatePattern_mono inner) (authorizeUpdateExpression_mono expression)
  | .orderBy inner expressions =>
    andThen_mono (authorizeUpdatePattern_mono inner) (authorizeOrder_mono expressions)
  | .project inner _ | .distinct inner | .reduced inner | .slice inner _ _ =>
    authorizeUpdatePattern_mono inner
  | .group inner _ aggregates =>
    andThen_mono (authorizeUpdatePattern_mono inner) (authorizeAggregates_mono aggregates)
  | .service _ _ _ | .lateral _ _ => nofun

theorem authorizeUpdateExpression_mono : ∀ expression : Expression,
    authorizeUpdateExpression check expression = .ok () →
      authorizeUpdateExpression check' expression = .ok ()
  | .namedNode _ | .literal _ | .var _ | .bound _ => fun _ => rfl
  | .binary _ left right =>
    andThen_mono (authorizeUpdateExpression_mono left) (authorizeUpdateExpression_mono right)
  | .isIn left right =>
    andThen_mono (authorizeUpdateExpression_mono left) (authorizeList_mono right)
  | .unary _ inner => authorizeUpdateExpression_mono inner
  | .existsPattern pattern => authorizeUpdatePattern_mono pattern
  | .ifThenElse condition left right =>
    andThen_mono (authorizeUpdateExpression_mono condition)
      (andThen_mono (authorizeUpdateExpression_mono left) (authorizeUpdateExpression_mono right))
  | .coalesce expressions | .functionCall _ expressions => authorizeList_mono expressions

theorem authorizeList_mono : ∀ expressions : List Expression,
    authorizeList check expressions = .ok () → authorizeList check' expressions = .ok ()
  | [] => fun _ => rfl
  | expression :: expressions =>
    andThen_mono (authorizeUpdateExpression_mono expression) (authorizeList_mono expressions)

theorem authorizeOptional_mono : ∀ expression : Option Expression,
    authorizeOptional check expression = .ok () → authorizeOptional check' expression = .ok ()
  | none => fun _ => rfl
  | some expression => authorizeUpdateExpression_mono expression

theorem authorizeOrder_mono : ∀ expressions : List (Bool × Expression),
    authorizeOrder check expressions = .ok () → authorizeOrder check' expressions = .ok ()
  | [] => fun _ => rfl
  | (_, expression) :: expressions =>
    andThen_mono (authorizeUpdateExpression_mono expression) (authorizeOrder_mono expressions)

theorem authorizeAggregates_mono : ∀ aggregates : List (Text × Aggregate),
    authorizeAggregates check aggregates = .ok () → authorizeAggregates check' aggregates = .ok ()
  | [] => fun _ => rfl
  | (_, .countSolutions _) :: aggregates => authorizeAggregates_mono aggregates
  | (_, .functionCall _ expr _) :: aggregates =>
    andThen_mono (authorizeUpdateExpression_mono expr) (authorizeAggregates_mono aggregates)

end

end Walk

/-! ## Two runs -/

namespace QuadTemplate

def hasNoBlank (t : QuadTemplate) : Bool :=
  match t.triple.subject, t.triple.object with
  | .blankNode _, _ | _, .blankNode _ => false
  | _, _ => true

theorem instantiate_of_hasNoBlank {t : QuadTemplate} (ht : t.hasNoBlank = true)
    (blank blank' : Text → Option EncodedTerm) (σ : Solution) :
    instantiate blank σ t = instantiate blank' σ t := by
  have hplace : ∀ place : TermPattern, (∀ label, place ≠ .blankNode label) →
      termAt blank σ place = termAt blank' σ place := by
    intro place hne
    cases place with
    | blankNode label => exact absurd rfl (hne label)
    | namedNode _ | literal _ | var _ => rfl
  have hsubject : ∀ label, t.triple.subject ≠ .blankNode label := by
    intro label h
    simp [hasNoBlank, h] at ht
  have hobject : ∀ label, t.triple.object ≠ .blankNode label := by
    intro label h
    cases hs : t.triple.subject <;> simp [hasNoBlank, h, hs] at ht
  rw [instantiate, instantiate, hplace _ hsubject, hplace _ hobject]

end QuadTemplate

theorem insertions_of_hasNoBlank {insert : List QuadTemplate}
    (hinsert : ∀ t ∈ insert, t.hasNoBlank = true) (fresh : Nat → Text → EncodedTerm)
    (solutions : List Solution) :
    insertions fresh insert solutions = deletions insert solutions := by
  have hstep : ∀ σ : Solution × Nat,
      insert.filterMap (instantiate (fun label => some (fresh σ.2 label)) σ.1) =
        insert.filterMap (instantiate (fun _ => none) σ.1) := fun σ =>
    filterMap_congr fun t ht => instantiate_of_hasNoBlank (hinsert t ht) _ _ _
  calc insertions fresh insert solutions
      = solutions.zipIdx.flatMap fun σ =>
          insert.filterMap (instantiate (fun _ => none) σ.1) :=
        flatMap_congr fun σ _ => hstep σ
    _ = deletions insert (solutions.zipIdx.map Prod.fst) := by rw [deletions, flatMap_map]
    _ = deletions insert solutions := by rw [zipIdx_map_fst]

/-- The solutions of an operation are a function of the dataset up to their order, and it makes no
blank nodes. -/
def Operation.Deterministic {Physical : Type} (e : Evaluator Physical) : Operation → Prop
  | .deleteInsert _ insert dataset pattern =>
    (∀ t ∈ insert, t.hasNoBlank = true) ∧
      ∀ phys phys' D, (e.solve phys (dataset.map QueryDataset.distinct) pattern D).Perm
        (e.solve phys' (dataset.map QueryDataset.distinct) pattern D)
  | .insertData _ | .deleteData _ | .clear _ _ | .drop _ _ | .create _ _ | .load _ => True

/-- An operation does not take all graphs of the store as its target. -/
def Operation.namesTarget : Operation → Bool
  | .clear _ .namedGraphs | .clear _ .allGraphs | .drop _ .namedGraphs | .drop _ .allGraphs => false
  | .insertData _ | .deleteData _ | .deleteInsert _ _ _ _ | .clear _ (.namedNode _)
  | .clear _ .defaultGraph | .drop _ (.namedNode _) | .drop _ .defaultGraph | .create _ _
  | .load _ => true

theorem Evaluator.yielded_perm {Physical : Type} {e : Evaluator Physical}
    (harrange : ∀ phys quads, (e.arrange phys quads).Perm quads) {delete insert : List QuadTemplate}
    {dataset : Option QueryDataset} {pattern : Pattern}
    (hdet : (Operation.deleteInsert delete insert dataset pattern).Deterministic e)
    (phys phys' : Physical) (view : RdfDataset) :
    (e.yielded phys delete insert (dataset.map QueryDataset.distinct) pattern view).Perm
      (e.yielded phys' delete insert (dataset.map QueryDataset.distinct) pattern view) := by
  obtain ⟨hblank, hsolve⟩ := hdet
  have hdeletions (templates : List QuadTemplate) := (hsolve phys phys' view).flatMap_right
    fun σ => templates.filterMap (instantiate (fun _ => none) σ)
  unfold Evaluator.yielded
  refine (harrange phys _).trans (List.Perm.trans ?_ (harrange phys' _).symm)
  rw [insertions_of_hasNoBlank hblank, insertions_of_hasNoBlank hblank]
  exact ((hdeletions delete).map _).append ((hdeletions insert).map _)

theorem Pushed.fits_perm {limits : UpdateLimits} {acc : Pushed}
    {changes changes' : List MaterializedQuadChange} (hperm : changes.Perm changes')
    (h : acc.Fits limits changes) : acc.Fits limits changes' := by
  intro hne
  have hne' : changes ≠ [] := fun hnil => hne (nil_perm.mp (hnil ▸ hperm))
  have hlength : (acc.push changes').changes.length = (acc.push changes).changes.length := by
    simp [Pushed.push, hperm.length_eq]
  have hgraphs : (acc.push changes').graphs = (acc.push changes).graphs := by
    simp only [Pushed.push]
    rw [toFinset_eq_of_perm _ _ (hperm.map MaterializedQuadChange.graph)]
  rw [hlength, hgraphs]
  exact h hne'

namespace UpdateRun

variable {Physical Policy : Type} [Inhabited Policy]

/-- The same caller and limits on another store. -/
def onStore (run : UpdateRun Physical Policy) (store : UpdateStore Policy) (phys : Physical) :
    UpdateRun Physical Policy :=
  { run with store := store, phys := phys }

variable {run : UpdateRun Physical Policy} {store' : UpdateStore Policy} {phys' : Physical}

theorem updateDataset_transfer (hagree : Agree run.auth run.store store')
    {dataset dataset' : Option QueryDataset} (h : run.updateDataset dataset = .ok dataset') :
    (run.onStore store' phys').updateDataset dataset = .ok dataset' := by
  cases dataset with
  | none => exact h
  | some dataset =>
    have hforM : ∀ graphs : List GraphId, graphs.forM (authorizeRead run.auth run.store) = .ok () →
        graphs.forM (authorizeRead run.auth store') = .ok () := by
      intro graphs hgraphs
      rw [Fallible.forM_eq_ok] at hgraphs ⊢
      exact fun graph hgraph => hagree.authorizeRead (hgraphs graph hgraph)
    exact Fallible.andThen_mono (hforM _) (Fallible.andThen_mono (hforM _) id) h

variable {changes : List MaterializedQuadChange}

section

variable (hagree : Agree run.auth run.store store')
include hagree

theorem authorizeTemplateGraph_transfer
    {graph : GraphNamePattern} (h : run.authorizeTemplateGraph graph = .ok ()) :
    (run.onStore store' phys').authorizeTemplateGraph graph = .ok () := by
  cases graph with
  | namedNode graph => exact hagree.authorizeWrite h
  | defaultGraph => exact h
  | var name => rfl

/-- `CLEAR` or `DROP` of a graph that the caller may write. -/
theorem removal_transfer {graph : GraphId} {silent : Bool} {readable : List GraphId}
    (readable' : List GraphId) (h : run.Emits readable changes (.clear silent (.namedNode graph))) :
    ∃ changes', (run.onStore store' phys').Emits readable' changes'
      (.clear silent (.namedNode graph)) ∧ changes.Perm changes' := by
  obtain ⟨graphs, hgraphs, hwrite, rfl⟩ := h
  cases hgraphs
  have hgraph := hwrite graph mem_cons_self
  have hsame := hagree graph (.inl (.inr hgraph))
  refine ⟨_, ⟨[graph], rfl, ?_, rfl⟩, ?_⟩
  · intro g hg
    rw [mem_singleton.mp hg]
    exact hagree.authorizeWrite hgraph
  · rw [flatMap_singleton, flatMap_singleton]
    exact hsame.quads.map _

/-- **One operation** emits the same changes on both stores, up to their order. -/
theorem emits_transfer (harrange : ∀ phys quads, (run.evaluator.arrange phys quads).Perm quads)
    {op : Operation} (hdet : op.Deterministic run.evaluator) (htarget : op.namesTarget = true)
    (h : run.Emits (run.store.graphs.filter (mayRead run.auth run.store)) changes op) :
    ∃ changes', (run.onStore store' phys').Emits
        (store'.graphs.filter (mayRead run.auth store')) changes' op ∧ changes.Perm changes' := by
  cases op with
  | insertData data | deleteData data => exact ⟨changes, h, .refl _⟩
  | deleteInsert delete insert dataset pattern =>
    obtain ⟨dataset', hdataset, hpattern, htemplates, hestimate, _, rfl, hlength, hchanges⟩ := h
    obtain rfl := updateDataset_eq_ok hdataset
    have hyield := run.evaluator.yielded_perm harrange hdet run.phys phys'
      (run.store.visible (run.store.graphs.filter (mayRead run.auth run.store)))
    obtain ⟨changes', hchanges', hperm⟩ := perm_comp_forall₂ hyield.symm hchanges
    rw [hagree.visible] at hyield hchanges' hlength
    refine ⟨changes', ⟨_, updateDataset_transfer hagree hdataset, ?_, ?_, hestimate, _, rfl, ?_,
      hchanges'⟩, hperm.symm⟩
    · exact authorizeUpdatePattern_mono (fun graph => hagree.authorizeRead) pattern hpattern
    · exact fun t ht => authorizeTemplateGraph_transfer hagree (htemplates t ht)
    · exact hyield.length_eq ▸ hlength
  | clear silent target =>
    cases target with
    | namedNode graph => exact removal_transfer hagree _ h
    | defaultGraph => exact nomatch h.choose_spec.1
    | namedGraphs | allGraphs => exact nomatch htarget
  | drop silent target =>
    cases target with
    | namedNode graph =>
      -- `DROP` emits what `CLEAR` does
      have hclear : run.Emits [] changes (.clear silent (.namedNode graph)) := h
      obtain ⟨changes', hchanges', hperm⟩ := removal_transfer hagree [] hclear
      exact ⟨changes', hchanges', hperm⟩
    | defaultGraph => exact nomatch h.choose_spec.1
    | namedGraphs | allGraphs => exact nomatch htarget
  | create silent graph =>
    obtain ⟨hwrite, hgraph, rfl⟩ := h
    have hsame := hagree graph (.inl (.inr hwrite))
    have hgraph' : graph ∈ store'.graphs := by
      by_contra hmissing
      have := hsame.record
      simp [UpdateStore.graphPolicy, hgraph, hmissing] at this
    exact ⟨[], ⟨hagree.authorizeWrite hwrite, hgraph', rfl⟩, .refl _⟩
  | load silent => exact h.elim

end

theorem update_transfer (run : UpdateRun Physical Policy) (hagree : Agree run.auth run.store store')
    (hanswers : ∀ graph ∈ store'.graphs, Answers run.auth store' graph)
    (harrange : ∀ phys quads, (run.evaluator.arrange phys quads).Perm quads)
    {operations : List Operation} (hdet : ∀ op ∈ operations, op.Deterministic run.evaluator)
    (htargets : ∀ op ∈ operations, op.namesTarget = true)
    (h : run.evaluateUpdate operations = .ok changes) :
    ∃ changes', (run.onStore store' phys').evaluateUpdate operations = .ok changes' ∧
      changes.Perm changes' := by
  obtain ⟨readable, hreadable, parts, hparts, hwrite, hfits, rfl⟩ := evaluateUpdate_eq_ok.mp h
  obtain ⟨-, rfl⟩ := readableUpdateGraphs_eq_ok.mp hreadable
  have htransfer : ∃ parts', List.Forall₂ (fun op part => (run.onStore store' phys').Emits
        (store'.graphs.filter (mayRead run.auth store')) part op) operations parts' ∧
      List.Forall₂ List.Perm parts parts' := by
    clear h hwrite hfits hreadable
    induction hparts with
    | nil => exact ⟨[], .nil, .nil⟩
    | cons hpart hparts ih =>
      obtain ⟨hdet, hdets⟩ := forall_mem_cons.mp hdet
      obtain ⟨htarget, htargets⟩ := forall_mem_cons.mp htargets
      obtain ⟨part', hpart', hperm⟩ := emits_transfer hagree harrange hdet htarget hpart
      obtain ⟨parts', hparts', hperms⟩ := ih hdets htargets
      exact ⟨part' :: parts', .cons hpart' hparts', .cons hperm hperms⟩
  obtain ⟨parts', hparts', hperms⟩ := htransfer
  have hperm : parts.flatten.Perm parts'.flatten := List.Perm.flatten_congr hperms
  refine ⟨parts'.flatten, evaluateUpdate_eq_ok.mpr ⟨_, ?_, parts', hparts', ?_, ?_, rfl⟩, hperm⟩
  · exact readableUpdateGraphs_eq_ok.mpr ⟨hanswers, rfl⟩
  · exact fun c hc => hagree.authorizeWrite (hwrite c (hperm.mem_iff.mpr hc))
  · exact Pushed.fits_perm hperm hfits

end UpdateRun

/-- **Updates respect grants.** Every change names a graph that the caller may write under the policy
of the snapshot. On two stores that agree on all graphs that the caller may read or write, the changes
of a request are the same, or both evaluations fail. -/
theorem update_respects_grants {Physical Policy : Type} [Inhabited Policy]
    (run : UpdateRun Physical Policy) (operations : List Operation) :
    (∀ changes, run.evaluateUpdate operations = .ok changes → ∀ c ∈ changes,
      run.auth c.graph ((run.store.graphPolicy c.graph).getD default) .write = .ok ()) ∧
    ∀ (store' : UpdateStore Policy) (phys' : Physical), Agree run.auth run.store store' →
      (∀ graph ∈ run.store.graphs, Answers run.auth run.store graph) →
      (∀ graph ∈ store'.graphs, Answers run.auth store' graph) →
      (∀ phys quads, (run.evaluator.arrange phys quads).Perm quads) →
      (∀ op ∈ operations, op.Deterministic run.evaluator) →
      (∀ op ∈ operations, op.namesTarget = true) →
      (∃ changes changes', run.evaluateUpdate operations = .ok changes ∧
        (run.onStore store' phys').evaluateUpdate operations = .ok changes' ∧
        ∀ c, c ∈ changes ↔ c ∈ changes') ∨
      ∃ failure failure', run.evaluateUpdate operations = .error failure ∧
        (run.onStore store' phys').evaluateUpdate operations = .error failure' := by
  refine ⟨fun changes h c hc => ?_, ?_⟩
  · obtain ⟨readable, -, parts, -, hwrite, -, rfl⟩ := UpdateRun.evaluateUpdate_eq_ok.mp h
    exact authorizeWrite_eq_ok.mp (hwrite c hc)
  intro store' phys' hagree hanswers hanswers' harrange hdet htargets
  cases hrun : run.evaluateUpdate operations with
  | ok changes =>
    obtain ⟨changes', hrun', hperm⟩ :=
      run.update_transfer hagree hanswers' harrange hdet htargets hrun
    exact .inl ⟨changes, changes', rfl, hrun', fun c => hperm.mem_iff⟩
  | error failure =>
    cases hrun' : (run.onStore store' phys').evaluateUpdate operations with
    | error failure' => exact .inr ⟨failure, failure', rfl, rfl⟩
    | ok changes' =>
      -- back to the first store
      have hback : ∃ changes, ((run.onStore store' phys').onStore run.store
          run.phys).evaluateUpdate operations = .ok changes ∧ changes'.Perm changes :=
        (run.onStore store' phys').update_transfer hagree.symm hanswers harrange hdet htargets
          hrun'
      obtain ⟨changes, hback, -⟩ := hback
      exact absurd (hback.symm.trans hrun) nofun

/-- A graph that the caller may neither read nor write. -/
def hiddenGraph : GraphId := ⟨"urn:hidden".toList⟩

/-- A caller with all rights on the sample graph and no others. -/
def sampleGraphOnly : Authorizer Unit := fun graph _ action =>
  if graph = sampleGraph then .ok () else .error (.permissionDenied action graph)

def guardedRun : UpdateRun Unit Unit := { sampleRun [sampleQuad] with auth := sampleGraphOnly }

def hiddenStore : UpdateStore Unit where
  graphs := [sampleGraph, hiddenGraph]
  policy _ := ()
  quads := [(sampleGraph, sampleQuad), (hiddenGraph, sampleQuad)]
  orphaned _ _ := false
  recorded := by decide

theorem agree_hiddenStore : Agree sampleGraphOnly (sampleStore [sampleQuad]) hiddenStore := by
  intro graph haccess
  have hgraph : graph = sampleGraph := by
    by_contra hne
    have hdenied : ∀ policy action, sampleGraphOnly graph policy action =
        .error (.permissionDenied action graph) := fun _ _ => if_neg hne
    simp [MayAccess, mayRead_eq, authorizeWrite_eq_ok, hdenied, Except.isOk, Except.toBool] at haccess
  subst hgraph
  exact ⟨by decide +kernel, by decide +kernel, fun _ => rfl⟩

theorem answers_sampleGraphOnly (store : UpdateStore Unit) (graph : GraphId) :
    Answers sampleGraphOnly store graph := by
  intro pattern message
  rw [sampleGraphOnly]
  split <;> simp

/-- Both runs succeed, with the same changes. -/
theorem update_respects_grants_move :
    ∃ changes changes', guardedRun.evaluateUpdate
        [sampleUpdate [sampleQuad] [movedQuad] [sampleQuad]] = .ok changes ∧
      (guardedRun.onStore hiddenStore ()).evaluateUpdate
        [sampleUpdate [sampleQuad] [movedQuad] [sampleQuad]] = .ok changes' ∧
      ∀ c, c ∈ changes ↔ c ∈ changes' := by
  have hsame := (update_respects_grants guardedRun
    [sampleUpdate [sampleQuad] [movedQuad] [sampleQuad]]).2 hiddenStore () agree_hiddenStore
    (fun graph _ => answers_sampleGraphOnly _ graph) (fun graph _ => answers_sampleGraphOnly _ graph)
    (fun _ _ => .refl _) (by simpa using ⟨by decide, fun _ _ _ => .refl _⟩) (by decide)
  refine hsame.resolve_right ?_
  rintro ⟨failure, _, hfailed, _⟩
  have hok : Except.isOk (guardedRun.evaluateUpdate
      [sampleUpdate [sampleQuad] [movedQuad] [sampleQuad]]) = true := by
    decide +kernel
  rw [hfailed] at hok
  cases hok

theorem clear_all_depends_on_hidden :
    Agree sampleGraphOnly (sampleStore [sampleQuad]) hiddenStore ∧
    guardedRun.evaluateUpdate [.clear false .allGraphs] = .ok [.delete sampleGraph sampleQuad] ∧
    (guardedRun.onStore hiddenStore ()).evaluateUpdate [.clear false .allGraphs] =
      .error (.authorization (.permissionDenied .write hiddenGraph)) :=
  ⟨agree_hiddenStore, by decide +kernel, by decide +kernel⟩

end Craqle
