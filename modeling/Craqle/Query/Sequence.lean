import Craqle.Query.Update

/-! # What SPARQL prescribes for an update

The operations of a request take effect one after the other: a `WHERE` clause, a `CLEAR` and a `DROP`
see what the operations before them left, and an operation deletes all that its solutions delete
before it inserts what they insert. Blank nodes of `INSERT DATA` are new ones.

The code evaluates every operation on the content before the request, without the entities that are
hidden, and lists the changes in the order in which they come up. `Operation.InStep` says of one
operation that this makes no difference: blank nodes of its data are in the graph already or there
are none, its solutions change the same quads as those that are prescribed and delete none that they
insert, and what a `CLEAR` or `DROP` finds was there before the request. If every operation is in
step, the request does what is prescribed (`evaluate_update_prescribed`). A request with an operation
that is not in step can still end as prescribed, when a later operation makes up for it.
-/

namespace Craqle

open List

/-! ## The prescribed meaning -/

def namedQuads (quads : List (GraphName × Triple)) : List NamedQuad :=
  quads.filterMap fun q =>
    match q.1 with
    | .namedNode graph => some (graph, q.2)
    | .blankNode _ | .defaultGraph => none

/-- The new blank node for a blank node of the data. -/
def renameBlank (fresh : Text → EncodedTerm) (t : EncodedTerm) : EncodedTerm :=
  match t.text with
  | '_' :: ':' :: label => fresh label
  | _ => t

def Triple.renameBlanks (fresh : Text → EncodedTerm) (q : Triple) : Triple :=
  ⟨renameBlank fresh q.subject, renameBlank fresh q.predicate, renameBlank fresh q.object⟩

def GraphTarget.covers : GraphTarget → GraphId → Bool
  | .namedNode graph, graph' => graph = graph'
  | .defaultGraph, _ => false
  | .namedGraphs, _ | .allGraphs, _ => true

namespace RdfDataset

def insertQuads (D : RdfDataset) (quads : List NamedQuad) : RdfDataset where
  graphs := D.graphs ∪ (quads.map Prod.fst).toFinset
  quads := D.quads ∪ quads.toFinset

def deleteQuads (D : RdfDataset) (quads : List NamedQuad) : RdfDataset :=
  { D with quads := D.quads \ quads.toFinset }

def clear (D : RdfDataset) (target : GraphTarget) : RdfDataset :=
  { D with quads := D.quads.filter fun q => !target.covers q.1 }

end RdfDataset

section Prescribed

variable (solve : Option QueryDataset → Pattern → RdfDataset → List Solution)
  (fresh : Nat → Text → EncodedTerm)

def Operation.prescribed (D : RdfDataset) : Operation → RdfDataset
  | .insertData data =>
    D.insertQuads (namedQuads (data.map fun q => (q.1, q.2.renameBlanks (fresh 0))))
  | .deleteData data => D.deleteQuads (namedQuads data)
  | .deleteInsert delete insert dataset pattern =>
    let solutions := solve (dataset.map QueryDataset.distinct) pattern D
    (D.deleteQuads (namedQuads (deletions delete solutions))).insertQuads
      (namedQuads (insertions fresh insert solutions))
  | .clear _ target => D.clear target
  | .drop _ target =>
    { D.clear target with graphs := D.graphs.filter fun graph => !target.covers graph }
  | .create _ graph => { D with graphs := insert graph D.graphs }
  | .load _ => D

/-- What a request does: its operations one after the other. -/
def prescribed (operations : List Operation) (D : RdfDataset) : RdfDataset :=
  operations.foldl (fun D op => op.prescribed solve fresh D) D

/-- An operation that is evaluated where `seen` is to be seen and `content` is stored does to a dataset
what is prescribed. -/
def Operation.InStep (seen content D : RdfDataset) : Operation → Prop
  | .insertData data =>
    D.quads ∪ (namedQuads data).toFinset =
      D.quads ∪ (namedQuads (data.map fun q => (q.1, q.2.renameBlanks (fresh 0)))).toFinset
  | .deleteInsert delete insert dataset pattern =>
    let found := solve (dataset.map QueryDataset.distinct) pattern seen
    let due := solve (dataset.map QueryDataset.distinct) pattern D
    (∀ q ∈ namedQuads (insertions fresh insert found), q ∉ namedQuads (deletions delete found)) ∧
      D.quads \ (namedQuads (deletions delete found)).toFinset ∪
          (namedQuads (insertions fresh insert found)).toFinset =
        D.quads \ (namedQuads (deletions delete due)).toFinset ∪
          (namedQuads (insertions fresh insert due)).toFinset
  | .clear _ target | .drop _ target => ∀ q ∈ D.quads, target.covers q.1 = true → q ∈ content.quads
  | .deleteData _ | .create _ _ | .load _ => True

end Prescribed

/-- Every operation of a request is in step with what the operations before it leave. -/
def UpdateRun.InStep {Physical Policy : Type} (run : UpdateRun Physical Policy)
    (operations : List Operation) : Prop :=
  ∀ before op after, operations = before ++ op :: after →
    op.InStep (run.evaluator.solve run.phys) (run.evaluator.fresh run.phys)
      (run.store.visible run.store.graphs) run.store.content
      (prescribed (run.evaluator.solve run.phys) (run.evaluator.fresh run.phys) before
        run.store.content)

/-! ## The changes of an operation -/

theorem mem_namedQuads {quads : List (GraphName × Triple)} {q : NamedQuad} :
    q ∈ namedQuads quads ↔ (.namedNode q.1, q.2) ∈ quads := by
  simp only [namedQuads, mem_filterMap]
  constructor
  · rintro ⟨⟨graph, quad⟩, hmem, hq⟩
    cases graph with
    | namedNode graph =>
      cases hq
      exact hmem
    | blankNode label | defaultGraph => exact absurd hq (by simp)
  · intro hmem
    exact ⟨_, hmem, rfl⟩

/-- The quad that the evaluator yields for a change. -/
def MaterializedQuadChange.yielded : MaterializedQuadChange → DeleteInsertQuad
  | .insert graph quad => .insert (.namedNode graph) quad
  | .delete graph quad => .delete (.namedNode graph) quad

theorem updateQuadChange_eq_ok {q : DeleteInsertQuad} {c : MaterializedQuadChange} :
    updateQuadChange q = .ok c ↔ q = c.yielded := by
  rcases q with ⟨name, quad⟩ | ⟨name, quad⟩
  all_goals
    cases name <;> cases c <;> simp [updateQuadChange, insertChange, deleteChange, graphIdOf,
      Except.map, MaterializedQuadChange.yielded]

section Operations

variable {data : List (GraphName × Triple)} {changes : List MaterializedQuadChange}

/-- The changes that yielded quads are converted to, one by one. -/
theorem mem_changes {yielded : List DeleteInsertQuad}
    (h : List.Forall₂ (fun q c => updateQuadChange q = .ok c) yielded changes)
    (c : MaterializedQuadChange) : c ∈ changes ↔ c.yielded ∈ yielded := by
  induction h with
  | nil => simp
  | cons hhead _ ih =>
    obtain rfl := updateQuadChange_eq_ok.mp hhead
    have hinj : ∀ c' : MaterializedQuadChange, c.yielded = c'.yielded ↔ c = c' := by
      intro c'
      cases c <;> cases c' <;> simp [MaterializedQuadChange.yielded]
    rw [mem_cons, mem_cons, ih, hinj]

/-- The edits of changes that are no contradiction. -/
theorem mem_applyChanges
    (h : ∀ graph quad, .insert graph quad ∈ changes → .delete graph quad ∉ changes)
    (quads : Finset NamedQuad) (q : NamedQuad) :
    q ∈ applyChanges changes quads ↔
      .insert q.1 q.2 ∈ changes ∨ q ∈ quads ∧ .delete q.1 q.2 ∉ changes := by
  have hedit : ∀ c : MaterializedQuadChange,
      c.edit ∈ changes.map MaterializedQuadChange.edit ↔ c ∈ changes := by
    refine fun c => mem_map_of_injective fun c c' heq => ?_
    cases c <;> cases c' <;> simp_all [MaterializedQuadChange.edit]
  have hconsistent : Edits.Consistent (changes.map MaterializedQuadChange.edit) := fun q hq hdelete =>
    h q.1 q.2 ((hedit (.insert q.1 q.2)).mp hq) ((hedit (.delete q.1 q.2)).mp hdelete)
  rw [applyChanges, Edits.mem_apply_of_consistent hconsistent, ← hedit, ← hedit]
  rfl

/-- Deletions and insertions in any order, if none is of the same quad. -/
theorem applyChanges_deleteInsert {deleted inserted : List (GraphName × Triple)}
    {yielded : List DeleteInsertQuad}
    (hyielded : yielded.Perm (deleted.map (fun q => .delete q.1 q.2) ++
      inserted.map fun q => .insert q.1 q.2))
    (h : List.Forall₂ (fun q c => updateQuadChange q = .ok c) yielded changes)
    (hconsistent : ∀ q ∈ namedQuads inserted, q ∉ namedQuads deleted) (quads : Finset NamedQuad) :
    applyChanges changes quads =
      quads \ (namedQuads deleted).toFinset ∪ (namedQuads inserted).toFinset := by
  have hinsert : ∀ graph quad, .insert graph quad ∈ changes ↔ (graph, quad) ∈ namedQuads inserted := by
    intro graph quad
    simp [mem_changes h, hyielded.mem_iff, mem_namedQuads, MaterializedQuadChange.yielded]
  have hdelete : ∀ graph quad, .delete graph quad ∈ changes ↔ (graph, quad) ∈ namedQuads deleted := by
    intro graph quad
    simp [mem_changes h, hyielded.mem_iff, mem_namedQuads, MaterializedQuadChange.yielded]
  ext q
  have hnot : ∀ graph quad, .insert graph quad ∈ changes → .delete graph quad ∉ changes := by
    intro graph quad hi
    rw [hdelete]
    exact hconsistent _ ((hinsert graph quad).mp hi)
  rw [mem_applyChanges hnot, hinsert, hdelete, Finset.mem_union, Finset.mem_sdiff,
    mem_toFinset, mem_toFinset]
  exact or_comm

theorem applyChanges_insertData
    (h : List.Forall₂ (fun q c => insertChange q = .ok c) data changes) (quads : Finset NamedQuad) :
    applyChanges changes quads = quads ∪ (namedQuads data).toFinset := by
  have hall := applyChanges_deleteInsert (.refl ([].map _ ++ data.map _))
    (forall₂_map_left_iff.mpr h) (by simp [namedQuads]) quads
  simpa [namedQuads] using hall

theorem applyChanges_deleteData
    (h : List.Forall₂ (fun q c => deleteChange q = .ok c) data changes) (quads : Finset NamedQuad) :
    applyChanges changes quads = quads \ (namedQuads data).toFinset := by
  have hall := applyChanges_deleteInsert (.refl (data.map _ ++ [].map _))
    (by rw [map_nil, append_nil]; exact forall₂_map_left_iff.mpr h)
    (by simp [namedQuads]) quads
  simpa [namedQuads] using hall

end Operations

namespace UpdateRun

variable {Physical Policy : Type} [Inhabited Policy] {run : UpdateRun Physical Policy}

omit [Inhabited Policy] in
/-- Who may read all graphs reads all of them. -/
theorem readable_eq_graphs (hauth : ∀ graph policy action, run.auth graph policy action = .ok ())
    {readable : List GraphId} (h : readableUpdateGraphs run.auth run.store = .ok readable) :
    readable = run.store.graphs := by
  rw [(readableUpdateGraphs_eq_ok.mp h).2]
  refine filter_eq_self.mpr fun g hg => ?_
  simp [mayRead, hg, hauth, Except.isOk, Except.toBool]

omit [Inhabited Policy] in
theorem mem_removed {target : GraphTarget} {graphs : List GraphId}
    (h : updateTargetGraphs run.store run.limits.maxGraphs target = .ok graphs) (q : NamedQuad) :
    q ∈ (graphs.flatMap fun graph => run.store.quads.filter fun q => q.1 = graph) ↔
      q ∈ run.store.quads ∧ target.covers q.1 = true := by
  simp only [mem_flatMap, mem_filter, decide_eq_true_eq]
  have hall : graphs = run.store.graphs → ((∃ graph ∈ graphs, q ∈ run.store.quads ∧ q.1 = graph) ↔
      q ∈ run.store.quads) := by
    rintro rfl
    exact ⟨fun ⟨_, _, hq, _⟩ => hq, fun hq => ⟨q.1, run.store.recorded q hq, hq, rfl⟩⟩
  cases target with
  | namedNode graph =>
    obtain rfl := (Except.ok.inj h).symm
    simp [GraphTarget.covers, eq_comm, and_comm]
  | defaultGraph => exact absurd h (by simp [updateTargetGraphs])
  | namedGraphs | allGraphs =>
    rw [updateTargetGraphs] at h
    split at h
    · exact absurd h (by simp)
    · simpa [GraphTarget.covers] using hall (Except.ok.inj h).symm

/-- **The changes of one operation** that is in step do what is prescribed. -/
theorem applyChanges_part (harrange : ∀ quads, (run.evaluator.arrange run.phys quads).Perm quads)
    {op : Operation} {changes : List MaterializedQuadChange}
    (h : run.Emits run.store.graphs changes op) {D : RdfDataset}
    (hstep : op.InStep (run.evaluator.solve run.phys) (run.evaluator.fresh run.phys)
      (run.store.visible run.store.graphs) run.store.content D) :
    applyChanges changes D.quads =
      (op.prescribed (run.evaluator.solve run.phys) (run.evaluator.fresh run.phys) D).quads := by
  have hclear : ∀ target : GraphTarget,
      (∃ graphs, updateTargetGraphs run.store run.limits.maxGraphs target = .ok graphs ∧
        (∀ graph ∈ graphs, authorizeWrite run.auth run.store graph = .ok ()) ∧
        changes = (graphs.flatMap fun graph => run.store.quads.filter fun q => q.1 = graph).map
          fun q => .delete q.1 q.2) →
      (∀ q ∈ D.quads, target.covers q.1 = true → q ∈ run.store.content.quads) →
      applyChanges changes D.quads = (D.clear target).quads := by
    rintro target ⟨graphs, hgraphs, -, rfl⟩ hsame
    ext q
    have hq : q ∈ D.quads → (q ∈ run.store.quads ∧ target.covers q.1 = true ↔
        target.covers q.1 = true) := by
      intro hD
      exact ⟨And.right, fun hcovers => ⟨mem_toFinset.mp (hsame q hD hcovers), hcovers⟩⟩
    rw [mem_applyChanges (by simp), RdfDataset.clear, Finset.mem_filter]
    simp only [mem_map, reduceCtorEq, and_false, exists_false, false_or,
      MaterializedQuadChange.delete.injEq, ← Prod.ext_iff, exists_eq_right, mem_removed hgraphs]
    refine and_congr_right fun hD => ?_
    rw [hq hD, Bool.not_eq_true, Bool.not_eq_true']
  cases op with
  | insertData data =>
    rw [applyChanges_insertData h]
    exact hstep
  | deleteData data => exact applyChanges_deleteData h _
  | deleteInsert delete insert dataset pattern =>
    obtain ⟨dataset', hdataset, -, -, -, quads, rfl, -, hchanges⟩ := h
    obtain rfl := updateDataset_eq_ok hdataset
    rw [applyChanges_deleteInsert (harrange _) hchanges hstep.1]
    exact hstep.2
  | clear silent target | drop silent target => exact hclear target h hstep
  | create silent graph =>
    obtain ⟨-, -, rfl⟩ := h
    rfl
  | load silent => exact h.elim

end UpdateRun

/-- A request of one operation, on a store without hidden entities. -/
theorem inStep_move :
    (sampleRun [sampleQuad]).InStep [sampleUpdate [sampleQuad] [movedQuad] [sampleQuad]] := by
  intro before op after h
  cases before with
  | cons first before => simp at h
  | nil =>
    obtain ⟨rfl, -⟩ : op = sampleUpdate [sampleQuad] [movedQuad] [sampleQuad] ∧ after = [] := by
      simpa [eq_comm] using h
    have hseen : (sampleRun [sampleQuad]).store.visible (sampleRun [sampleQuad]).store.graphs =
        (sampleRun [sampleQuad]).store.content := by
      refine congrArg₂ RdfDataset.mk ?_ ?_
      all_goals decide +kernel
    refine ⟨?_, ?_⟩
    · decide +kernel
    · rw [hseen]
      rfl

end Craqle
