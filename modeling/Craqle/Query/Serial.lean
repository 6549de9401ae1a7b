import Craqle.Lib.Transition
import Craqle.Query.Update

/-! # Concurrent updates of one graph

A call of `apply_sparql_update` evaluates its request on a snapshot, takes the write lock of the
graph, checks the right to write and applies its changes. The lock orders the commits, but a snapshot
is taken before the lock: the store can have changed when the changes are applied.

If no call applies its changes to quads that differ from its snapshot, the calls have the effect of
running one after the other (`updates_serializable`).
-/

namespace Craqle

open Transition List

def applyToRows (quads : List NamedQuad) : MaterializedQuadChange → List NamedQuad
  | .insert graph quad => if (graph, quad) ∈ quads then quads else quads ++ [(graph, quad)]
  | .delete graph quad => quads.filter (· ≠ (graph, quad))

/-- The update requests of several callers on one graph, and how each is evaluated on some rows. -/
structure UpdateCalls (ι Physical Policy : Type) where
  graph : GraphId
  request : ι → List Operation
  evaluation : ι → List NamedQuad → UpdateRun Physical Policy
  reads : ∀ i quads, (evaluation i quads).store.quads = quads

/-- How far a call is. From its evaluation on it carries the rows it read and what it will change. -/
inductive CallPhase where
  | idle
  | evaluated (snapshot : List NamedQuad) (changes : List MaterializedQuadChange)
  | locked (snapshot : List NamedQuad) (changes : List MaterializedQuadChange)
  | authorized (snapshot : List NamedQuad) (changes : List MaterializedQuadChange)
  | done
  | failed

/-- The rows of the store, the phase of each call, and who holds the graph's lock. -/
structure CallState (ι : Type) where
  quads : List NamedQuad
  phase : ι → CallPhase
  holder : Option ι

inductive CallStep (ι : Type) where
  | evaluate (i : ι)
  | lock (i : ι)
  | authorize (i : ι)
  | apply (i : ι)
  | fail (i : ι)

variable {ι Physical Policy : Type} [DecidableEq ι] [Inhabited Policy]

namespace CallState

def setPhase (s : CallState ι) (i : ι) (phase : CallPhase) : CallState ι :=
  { s with phase := Function.update s.phase i phase }

@[simp] theorem setPhase_phase_self (s : CallState ι) (i : ι) (phase : CallPhase) :
    (s.setPhase i phase).phase i = phase := Function.update_self ..

theorem setPhase_phase_of_ne (s : CallState ι) {i j : ι} (phase : CallPhase) (hne : j ≠ i) :
    (s.setPhase i phase).phase j = s.phase j := Function.update_of_ne hne ..

def release (s : CallState ι) (i : ι) : CallState ι :=
  { s with holder := if s.holder = some i then none else s.holder }

end CallState

namespace UpdateCalls

variable (calls : UpdateCalls ι Physical Policy)

def changes (i : ι) (quads : List NamedQuad) : Except UpdateFailure (List MaterializedQuadChange) :=
  (calls.evaluation i quads).evaluateUpdate (calls.request i)

/-- What each step needs and does. A request without changes returns at once; one with changes of
several graphs fails before it takes a lock. -/
def step (s : CallState ι) (label : CallStep ι) (s' : CallState ι) : Prop :=
  match label with
  | .evaluate i =>
    s.phase i = .idle ∧ ∃ changes, calls.changes i s.quads = .ok changes ∧
      s' = s.setPhase i (if changes = [] then .done else .evaluated s.quads changes)
  | .lock i =>
    ∃ snapshot changes, s.phase i = .evaluated snapshot changes ∧ s.holder = none ∧
      (∀ c ∈ changes, c.graph = calls.graph) ∧
      s' = { s.setPhase i (.locked snapshot changes) with holder := some i }
  | .authorize i =>
    ∃ snapshot changes, s.phase i = .locked snapshot changes ∧
      authorizeWrite (calls.evaluation i s.quads).auth
        (calls.evaluation i s.quads).store calls.graph = .ok () ∧
      s' = s.setPhase i (.authorized snapshot changes)
  | .apply i =>
    ∃ snapshot changes, s.phase i = .authorized snapshot changes ∧
      s' = { (s.setPhase i .done).release i with quads := changes.foldl applyToRows s.quads }
  | .fail i => s.phase i ≠ .done ∧ s' = (s.setPhase i .failed).release i

def system (quads : List NamedQuad) : System (CallState ι) (CallStep ι) where
  init s := s = ⟨quads, fun _ => .idle, none⟩
  step := calls.step

/-- A call that runs by itself. -/
def alone (quads : List NamedQuad) (i : ι) : Except UpdateFailure (List NamedQuad) :=
  (calls.changes i quads).map fun changes => changes.foldl applyToRows quads

def serial (order : List ι) (quads : List NamedQuad) : Except UpdateFailure (List NamedQuad) :=
  order.foldlM calls.alone quads

/-- A call applies its changes to the rows that it was evaluated on. -/
def AppliesToSnapshot (s : CallState ι) : CallStep ι → Prop
  | .apply i => ∀ snapshot changes, s.phase i = .authorized snapshot changes → snapshot = s.quads
  | .evaluate _ | .lock _ | .authorize _ | .fail _ => True

/-- What a call carries is what its evaluation gave. -/
def Holds (i : ι) : CallPhase → Prop
  | .evaluated snapshot changes | .locked snapshot changes | .authorized snapshot changes =>
    calls.changes i snapshot = .ok changes
  | .idle | .done | .failed => True

/-- The rows are those of a serial run of the calls that are done. -/
structure Serialized (start : List NamedQuad) (s : CallState ι) : Prop where
  holds : ∀ i, calls.Holds i (s.phase i)
  order : ∃ order : List ι, order.Nodup ∧ (∀ i, i ∈ order ↔ s.phase i = .done) ∧
    calls.serial order start = .ok s.quads

variable {calls} {start : List NamedQuad} {s : CallState ι} {i : ι}

theorem holds_setPhase {phase : CallPhase} (h : ∀ j, calls.Holds j (s.phase j))
    (hphase : calls.Holds i phase) (j : ι) : calls.Holds j ((s.setPhase i phase).phase j) := by
  by_cases hj : j = i
  · subst hj
    rwa [CallState.setPhase_phase_self]
  · rw [CallState.setPhase_phase_of_ne s phase hj]
    exact h j

theorem Serialized.goes_on {phase : CallPhase} (h : calls.Serialized start s)
    (hbefore : s.phase i ≠ .done) (hafter : phase ≠ .done) (hphase : calls.Holds i phase) :
    calls.Serialized start (s.setPhase i phase) := by
  obtain ⟨order, hnodup, hmem, hserial⟩ := h.order
  refine ⟨holds_setPhase h.holds hphase, order, hnodup, fun j => ?_, hserial⟩
  rw [hmem j]
  by_cases hj : j = i
  · subst hj
    rw [CallState.setPhase_phase_self]
    exact ⟨fun hdone => absurd hdone hbefore, fun hdone => absurd hdone hafter⟩
  · rw [CallState.setPhase_phase_of_ne s phase hj]

/-- A call whose changes are those of the current quads comes last in the order. -/
theorem Serialized.finishes {changes : List MaterializedQuadChange} (h : calls.Serialized start s)
    (hbefore : s.phase i ≠ .done) (hchanges : calls.changes i s.quads = .ok changes) :
    calls.Serialized start
      { s.setPhase i .done with quads := changes.foldl applyToRows s.quads } := by
  obtain ⟨order, hnodup, hmem, hserial⟩ := h.order
  have hnew : i ∉ order := fun hi => hbefore ((hmem i).mp hi)
  refine ⟨holds_setPhase h.holds trivial, order ++ [i], ?_, fun j => ?_, ?_⟩
  · rw [nodup_append_comm]
    exact nodup_cons.mpr ⟨hnew, hnodup⟩
  · rw [mem_append, mem_singleton, hmem j]
    by_cases hj : j = i
    · subst hj
      exact ⟨fun _ => CallState.setPhase_phase_self .., fun _ => .inr rfl⟩
    · rw [CallState.setPhase_phase_of_ne s .done hj]
      exact ⟨fun hdone => hdone.resolve_right hj, .inl⟩
  · have halone : calls.alone s.quads i = .ok (changes.foldl applyToRows s.quads) := by
      rw [alone, hchanges]
      rfl
    exact Fallible.foldlM_concat_eq_ok.mpr ⟨s.quads, hserial, halone⟩

omit [DecidableEq ι] in
/-- The lock plays no part in the order. -/
theorem Serialized.of_same {s' : CallState ι} (h : calls.Serialized start s)
    (hquads : s'.quads = s.quads) (hphase : s'.phase = s.phase) : calls.Serialized start s' :=
  ⟨hphase ▸ h.holds, hquads ▸ hphase ▸ h.order⟩

/-- Every step of a run keeps the order, if changes are applied to the quads they come from. -/
theorem serialized_step {s' : CallState ι} {label : CallStep ι} (h : calls.Serialized start s)
    (hallowed : AppliesToSnapshot s label) (hstep : calls.step s label s') :
    calls.Serialized start s' := by
  cases label with
  | evaluate i =>
    obtain ⟨hidle, changes, hchanges, rfl⟩ := hstep
    have hbefore : s.phase i ≠ .done := by rw [hidle]; nofun
    by_cases hnone : changes = []
    · rw [if_pos hnone]
      subst hnone
      exact h.finishes hbefore hchanges
    · rw [if_neg hnone]
      exact h.goes_on hbefore nofun hchanges
  | lock i =>
    obtain ⟨snapshot, changes, hphase, -, -, rfl⟩ := hstep
    have hchanges : calls.Holds i (.evaluated snapshot changes) := hphase ▸ h.holds i
    have hnext : calls.Serialized start (s.setPhase i (.locked snapshot changes)) :=
      h.goes_on (by rw [hphase]; nofun) nofun hchanges
    exact hnext.of_same rfl rfl
  | authorize i =>
    obtain ⟨snapshot, changes, hphase, -, rfl⟩ := hstep
    have hchanges : calls.Holds i (.locked snapshot changes) := hphase ▸ h.holds i
    exact h.goes_on (by rw [hphase]; nofun) nofun hchanges
  | apply i =>
    obtain ⟨snapshot, changes, hphase, rfl⟩ := hstep
    have hchanges : calls.Holds i (.authorized snapshot changes) := hphase ▸ h.holds i
    have hcurrent : snapshot = s.quads := hallowed snapshot changes hphase
    have hnext := h.finishes (by rw [hphase]; nofun) (hcurrent ▸ hchanges)
    exact hnext.of_same rfl rfl
  | fail i =>
    obtain ⟨hbefore, rfl⟩ := hstep
    have hnext : calls.Serialized start (s.setPhase i .failed) := h.goes_on hbefore nofun trivial
    exact hnext.of_same rfl rfl

variable (calls) (start) in
/-- In every run in which changes are applied to the quads that they were evaluated on, calls that
all succeed have the effect of running one after the other. -/
theorem updates_serializable (hreach : Reachable (calls.system start) AppliesToSnapshot s)
    (hdone : ∀ i, s.phase i = .done) :
    ∃ order : List ι, order.Nodup ∧ (∀ i, i ∈ order) ∧ calls.serial order start = .ok s.quads := by
  have hinv : calls.Serialized start s := hreach.invariant
    (fun _ hinit => hinit ▸
      ⟨fun _ => trivial, [], nodup_nil, fun _ => ⟨nofun, nofun⟩, rfl⟩)
    (fun _ _ _ h hallowed hstep => serialized_step h hallowed hstep)
  obtain ⟨order, hnodup, hmem, hserial⟩ := hinv.order
  exact ⟨order, hnodup, fun i => (hmem i).mpr (hdone i), hserial⟩

end UpdateCalls

def sampleCalls : UpdateCalls Bool Unit Unit where
  graph := sampleGraph
  request
    | false => [sampleUpdate [sampleQuad] [] [movedQuad]]
    | true => [sampleUpdate [movedQuad] [] [sampleQuad]]
  evaluation _ quads :=
    { sampleRun [] with
      store :=
        { sampleStore [] with
          graphs := sampleGraph :: quads.map Prod.fst
          quads := quads
          recorded := by
            intro q hq
            exact List.mem_cons_of_mem _ (List.mem_map_of_mem hq) } }
  reads _ _ := rfl

def sampleCallQuads : List NamedQuad := [(sampleGraph, sampleQuad), (sampleGraph, movedQuad)]

theorem updates_serializable_two :
    ∃ s, Reachable (sampleCalls.system sampleCallQuads) UpdateCalls.AppliesToSnapshot s ∧
      (∀ i, s.phase i = .done) ∧
      ∃ order : List Bool, order.Nodup ∧ (∀ i, i ∈ order) ∧
        sampleCalls.serial order sampleCallQuads = .ok s.quads := by
  have hinit : Reachable (sampleCalls.system sampleCallQuads) UpdateCalls.AppliesToSnapshot
      ⟨sampleCallQuads, fun _ => .idle, none⟩ := .init rfl
  have hevaluated := hinit.step (CallStep.evaluate false) trivial
    ⟨rfl, [.delete sampleGraph sampleQuad], by decide +kernel, rfl⟩
  have hlocked := hevaluated.step (CallStep.lock false) trivial
    ⟨sampleCallQuads, [.delete sampleGraph sampleQuad], rfl, rfl, by decide +kernel, rfl⟩
  have hauthorized := hlocked.step (CallStep.authorize false) trivial ⟨_, _, rfl, by decide +kernel, rfl⟩
  have happlied := hauthorized.step (CallStep.apply false)
    (fun snapshot changes h => (CallPhase.authorized.inj h).1.symm) ⟨_, _, rfl, rfl⟩
  -- the second call finds nothing to delete
  have hreach := happlied.step (CallStep.evaluate true) trivial ⟨rfl, [], by decide +kernel, rfl⟩
  refine ⟨_, hreach, ?done,
    UpdateCalls.updates_serializable sampleCalls sampleCallQuads hreach ?done⟩
  intro i
  cases i <;> rfl

/-- Both calls evaluate their request before one of them takes the lock: both quads go, and one after
the other the calls would leave one. -/
theorem updates_not_serializable :
    ∃ s, Reachable (sampleCalls.system sampleCallQuads) anyStep s ∧
      (∀ i, s.phase i = .done) ∧
      ∀ order : List Bool, order.Nodup → (∀ i, i ∈ order) →
        sampleCalls.serial order sampleCallQuads ≠ .ok s.quads := by
  have hinit : Reachable (sampleCalls.system sampleCallQuads) anyStep
      ⟨sampleCallQuads, fun _ => .idle, none⟩ := .init rfl
  have hfirst := hinit.step (CallStep.evaluate false) trivial
    ⟨rfl, [.delete sampleGraph sampleQuad], by decide +kernel, rfl⟩
  have hsecond := hfirst.step (CallStep.evaluate true) trivial
    ⟨rfl, [.delete sampleGraph movedQuad], by decide +kernel, rfl⟩
  have hlocked := hsecond.step (CallStep.lock false) trivial
    ⟨sampleCallQuads, [.delete sampleGraph sampleQuad], rfl, rfl, by decide +kernel, rfl⟩
  have hauthorized := hlocked.step (CallStep.authorize false) trivial ⟨_, _, rfl, by decide +kernel, rfl⟩
  have happlied := hauthorized.step (CallStep.apply false) trivial ⟨_, _, rfl, rfl⟩
  have hlocked' := happlied.step (CallStep.lock true) trivial
    ⟨sampleCallQuads, [.delete sampleGraph movedQuad], rfl, rfl, by decide +kernel, rfl⟩
  have hauthorized' := hlocked'.step (CallStep.authorize true) trivial ⟨_, _, rfl, by decide +kernel, rfl⟩
  have hreach := hauthorized'.step (CallStep.apply true) trivial ⟨_, _, rfl, rfl⟩
  refine ⟨_, hreach, fun i => by cases i <;> rfl, fun order hnodup hall => ?_⟩
  have hperm : order.Perm [false, true] :=
    (perm_ext_iff_of_nodup hnodup (by decide)).mpr fun i => by
      simp only [hall i, true_iff]
      cases i <;> decide
  have hcases : order = [false, true] ∨ order = [true, false] := by
    have hmem : order ∈ [false, true].permutations := mem_permutations.mpr hperm
    simpa [permutations, permutationsAux, permutationsAux.rec] using hmem
  rcases hcases with rfl | rfl <;> decide +kernel

end Craqle
