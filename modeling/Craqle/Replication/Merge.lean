import Craqle.Sync.Check
import Craqle.Store.Graph

/-! # Merging a batch

`merge_batch` on the graph the batch names: the ingress check, the causal check of the base
clock against the graph's clock, then the shared apply path of every replicated event. The
state returned beside the result is the state after the call, also where the call fails: a
graph record that was created before a failure stays.

`mergeBatch_cases` says once what a call can do. Everything proved about merging starts from
it.
-/

namespace Craqle

/-- Why a merge fails. The first two are both `InputRejected` in the source. -/
inductive MergeError where
  | inputRejected (error : SyncError)
  | ownDependency (identity : Dot)
  | missingDependencies (missing : List Dot)
  | panicked (panic : Panic)
  deriving DecidableEq

structure MergeResult where
  applied : Bool
  deriving DecidableEq

/-- Whether a call returned. -/
def isOk {ε α : Type} : Except ε α → Bool
  | .ok _ => true
  | .error _ => false

/-! ## The apply path -/

/-- The operations in order, then the clock. -/
def applySingleBatch (ox : Oxrdf) (s : GraphState) (b : Batch) : Except Panic GraphState :=
  (applyOps ox s.quads b.ops).map fun quads =>
    { s with quads := quads, clock := s.clock.advance b.actor b.counter }

/-- Skip a batch whose event the clock has seen; apply any other. -/
def applyIrokleGuarded (ox : Oxrdf) (s : GraphState) (b : Batch) :
    GraphState × Except MergeError MergeResult :=
  if s.clock.contains b.identity then (s, .ok ⟨false⟩)
  else
    match applySingleBatch ox s b with
    | .ok s' => (s', .ok ⟨true⟩)
    | .error p => (s, .error (.panicked p))

/-- The path of every replicated event: nothing reaches a tombstoned graph, and a missing
graph is created first. -/
def applyIroklePlan (ox : Oxrdf) (s : GraphState) (b : Batch) :
    GraphState × Except MergeError MergeResult :=
  if s.tombstone.isSome then (s, .ok ⟨false⟩)
  else applyIrokleGuarded ox (if s.present then s else s.createGraph) b

/-- Reject a causally unready batch. Counter zero marks a batch that carries no event of its
own. -/
def checkCausalBase (s : GraphState) (b : Batch) : Except MergeError Unit :=
  if b.counter > 0 ∧ b.baseClock.contains b.identity then .error (.ownDependency b.identity)
  else
    match missingDots b.baseClock s.clock with
    | [] => .ok ()
    | missing => .error (.missingDependencies missing)

/-- Validate and merge an externally transported batch. -/
def mergeBatch (ox : Oxrdf) (s : GraphState) (b : Batch) :
    GraphState × Except MergeError MergeResult :=
  match checkBatch ox b with
  | .error e => (s, .error (.inputRejected e))
  | .ok () =>
    match checkCausalBase s b with
    | .error e => (s, .error e)
    | .ok () => applyIroklePlan ox s b

/-! ## What the calls do -/

variable {ox : Oxrdf}

variable (ox) in
/-- What an apply changes: the quads and the clock, besides creating the graph. -/
theorem applyIroklePlan_cases (s : GraphState) (b : Batch) :
    (s.tombstone.isSome ∧ applyIroklePlan ox s b = (s, .ok ⟨false⟩)) ∨
    (s.tombstone = none ∧ s.clock.contains b.identity = true ∧
      applyIroklePlan ox s b = ({ s with present := true }, .ok ⟨false⟩)) ∨
    (s.tombstone = none ∧ s.clock.contains b.identity = false ∧
      ∃ p, applyOps ox s.quads b.ops = .error p ∧
        applyIroklePlan ox s b = ({ s with present := true }, .error (.panicked p))) ∨
    (s.tombstone = none ∧ s.clock.contains b.identity = false ∧
      ∃ quads, applyOps ox s.quads b.ops = .ok quads ∧
        applyIroklePlan ox s b =
          ({ s with present := true, quads := quads,
                    clock := s.clock.advance b.actor b.counter }, .ok ⟨true⟩)) := by
  by_cases ht : s.tombstone.isSome
  · refine Or.inl ⟨ht, ?_⟩
    unfold applyIroklePlan
    rw [if_pos ht]
  have hnone : s.tombstone = none := by simpa using ht
  refine Or.inr ?_
  have hcreate : (if s.present then s else s.createGraph) = { s with present := true } := by
    cases hp : s.present with
    | true =>
      rw [if_pos rfl]
      cases s
      simp_all
    | false => simp [GraphState.createGraph]
  unfold applyIroklePlan
  rw [if_neg ht, hcreate]
  unfold applyIrokleGuarded
  cases hc : s.clock.contains b.identity with
  | true => exact Or.inl ⟨hnone, rfl, rfl⟩
  | false =>
    refine Or.inr ?_
    unfold applySingleBatch
    cases hops : applyOps ox s.quads b.ops with
    | error p => exact Or.inl ⟨hnone, rfl, p, rfl, rfl⟩
    | ok quads => exact Or.inr ⟨hnone, rfl, quads, rfl, rfl⟩

variable {b : Batch} {s : GraphState}

theorem checkCausalBase_eq_ok_iff :
    checkCausalBase s b = .ok () ↔ (b.counter > 0 → b.baseClock.contains b.identity = false) ∧
      ∀ d, b.baseClock.contains d = true → s.clock.contains d = true := by
  unfold checkCausalBase
  by_cases hown : b.counter > 0 ∧ b.baseClock.contains b.identity = true
  · simp [hown]
  rw [if_neg hown]
  have hown' : b.counter > 0 → b.baseClock.contains b.identity = false := by
    intro hpos
    simpa [hpos] using hown
  rw [← missingDots_eq_nil_iff]
  cases hm : missingDots b.baseClock s.clock with
  | nil => exact ⟨fun _ => ⟨hown', rfl⟩, fun _ => rfl⟩
  | cons d rest => simp

variable (ox) in
/-- **What a merge can do.** Either it fails and changes nothing but the graph's presence, or
it skips the batch, or the batch was checked, causally ready and new, and is applied. -/
theorem mergeBatch_cases (s : GraphState) (b : Batch) :
    (∃ present e, mergeBatch ox s b = ({ s with present := present }, .error e)) ∨
    (∃ present, mergeBatch ox s b = ({ s with present := present }, .ok ⟨false⟩) ∧
      checkBatch ox b = .ok () ∧ checkCausalBase s b = .ok () ∧
      (s.tombstone.isSome ∨ s.clock.contains b.identity = true)) ∨
    (checkBatch ox b = .ok () ∧ checkCausalBase s b = .ok () ∧ s.tombstone = none ∧
      s.clock.contains b.identity = false ∧
      ∃ quads, applyOps ox s.quads b.ops = .ok quads ∧
        mergeBatch ox s b =
          ({ s with present := true, quads := quads,
                    clock := s.clock.advance b.actor b.counter }, .ok ⟨true⟩)) := by
  unfold mergeBatch
  rcases hcheck : checkBatch ox b with e | ⟨⟩
  · exact Or.inl ⟨s.present, _, rfl⟩
  rcases hbase : checkCausalBase s b with e | ⟨⟩
  · exact Or.inl ⟨s.present, _, rfl⟩
  rcases applyIroklePlan_cases ox s b with ⟨ht, heq⟩ | ⟨ht, hc, heq⟩ |
    ⟨ht, hc, p, hops, heq⟩ | ⟨ht, hc, quads, hops, heq⟩
  · exact Or.inr (Or.inl ⟨s.present, heq, rfl, rfl, Or.inl ht⟩)
  · exact Or.inr (Or.inl ⟨true, heq, rfl, rfl, Or.inr hc⟩)
  · exact Or.inl ⟨true, _, heq⟩
  · exact Or.inr (Or.inr ⟨rfl, rfl, ht, hc, quads, hops, heq⟩)

/-! ## Ready batches are applied -/

theorem contains_mergeBatch {d : Dot}
    (h : s.clock.contains d = true) : (mergeBatch ox s b).1.clock.contains d = true := by
  rcases mergeBatch_cases ox s b with ⟨present, e, heq⟩ | ⟨present, heq, _⟩ |
    ⟨_, _, _, _, quads, _, heq⟩
  · rw [heq]
    exact h
  · rw [heq]
    exact h
  · rw [heq]
    exact (VectorClock.contains_advance _ _ _ _).mpr (Or.inl h)

theorem tombstone_mergeBatch (s : GraphState) (b : Batch) :
    (mergeBatch ox s b).1.tombstone = s.tombstone := by
  rcases mergeBatch_cases ox s b with ⟨present, e, heq⟩ | ⟨present, heq, _⟩ |
    ⟨_, _, _, _, quads, _, heq⟩
  · rw [heq]
  · rw [heq]
  · rw [heq]

theorem resolveQuad_of_checked {q : Triple} (h : TermsChecked ox q) :
    ∃ q', resolveQuad ox q = .ok q' := by
  obtain ⟨_, hs⟩ := h q.subject (by simp [Triple.terms])
  obtain ⟨_, hp⟩ := h q.predicate (by simp [Triple.terms])
  obtain ⟨_, ho⟩ := h q.object (by simp [Triple.terms])
  obtain ⟨subject, hs⟩ := canonicalize_of_checkTerm hs
  obtain ⟨predicate, hp⟩ := canonicalize_of_checkTerm hp
  obtain ⟨object, ho⟩ := canonicalize_of_checkTerm ho
  refine ⟨⟨subject, predicate, object⟩, ?_⟩
  unfold resolveQuad
  rw [hs, hp, ho]
  rfl

theorem applyOps_of_checked {ops : List QuadOp} (h : ∀ op ∈ ops, TermsChecked ox op.quad)
    (t : QuadTable) : ∃ t', applyOps ox t ops = .ok t' := by
  refine Fallible.foldlM_total ?_ t
  intro op hop acc
  obtain ⟨q, hq⟩ := resolveQuad_of_checked (h op hop)
  exact ⟨_, Fallible.map_eq_ok.mpr ⟨q, hq, rfl⟩⟩

/-- **A merge returns without an error exactly when the batch is checked and causally
ready**, whatever else the graph holds. -/
theorem isOk_mergeBatch_iff :
    isOk (mergeBatch ox s b).2 = true ↔ checkBatch ox b = .ok () ∧ checkCausalBase s b = .ok () := by
  constructor
  · intro h
    rcases mergeBatch_cases ox s b with ⟨present, e, heq⟩ |
      ⟨present, heq, hcheck, hbase, _⟩ | ⟨hcheck, hbase, _⟩
    · rw [heq] at h
      simp [isOk] at h
    · exact ⟨hcheck, hbase⟩
    · exact ⟨hcheck, hbase⟩
  · rintro ⟨hcheck, hbase⟩
    obtain ⟨quads, hops⟩ := applyOps_of_checked
      (fun op hop => (checkBatch_ok hcheck op hop).1) s.quads
    have hmerge : mergeBatch ox s b = applyIroklePlan ox s b := by
      unfold mergeBatch
      rw [hcheck]
      simp only
      rw [hbase]
    rw [hmerge]
    rcases applyIroklePlan_cases ox s b with ⟨_, heq⟩ | ⟨_, _, heq⟩ |
      ⟨_, _, p, herr, heq⟩ | ⟨_, _, quads', _, heq⟩
    · rw [heq]
      rfl
    · rw [heq]
      rfl
    · rw [hops] at herr
      simp at herr
    · rw [heq]
      rfl

/-- **A checked and causally ready batch is accepted**, and its event seen afterwards, on
every live graph. -/
theorem mergeBatch_ready (hcheck : checkBatch ox b = .ok ())
    (hbase : checkCausalBase s b = .ok ()) (ht : s.tombstone = none) :
    isOk (mergeBatch ox s b).2 = true ∧
      (mergeBatch ox s b).1.clock.contains b.identity = true := by
  have hok := isOk_mergeBatch_iff.mpr ⟨hcheck, hbase⟩
  refine ⟨hok, ?_⟩
  rcases mergeBatch_cases ox s b with ⟨present, e, heq⟩ | ⟨present, heq, _, _, hskip⟩ |
    ⟨_, _, _, _, quads, _, heq⟩
  · rw [heq] at hok
    simp [isOk] at hok
  · rw [heq]
    rcases hskip with htomb | hseen
    · rw [ht] at htomb
      simp at htomb
    · exact hseen
  · rw [heq]
    exact (VectorClock.contains_advance _ _ _ _).mpr (Or.inr ⟨rfl, le_rfl⟩)

end Craqle
