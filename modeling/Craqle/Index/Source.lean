import Craqle.Core.Clock
import Craqle.Index.Exact

/-! # The index as a set of source quads

What the index is for: it stands for a finite set of source quads. Its rows are the encodings
of the quads of the set, each under the identifiers its terms have (`Represents`), and the
index facts hold of them (`Indexes`). An index update is then a list of changes of that set
(`planIndexUpdate_indexes`).

The transitions of a commit come from its quad mutations by `coalesced_transitions`, which
keeps for each quad the state before the first mutation and after the last one. They are net
changes of the source: no quad twice, and each one a difference (`netOn_coalescedTransitions`).
The mutations come from `write_quad_state`, which compares a quad's new dots with those that the
batch has staged or the store holds (`WriteBatch.Staged`).
-/

namespace Craqle

open List Toggle Function
open Std (ExtTreeSet)

/-! ## Net changes -/

/-- The changes of the source that transitions stand for. -/
def changesOf (transitions : List NetQuadTransition) : List (EncodedQuad × Bool) :=
  transitions.map fun τ => (τ.quad, τ.isLive)

theorem mem_changesOf {transitions : List NetQuadTransition} {e : EncodedQuad} {isLive : Bool} :
    (e, isLive) ∈ changesOf transitions ↔ ∃ τ ∈ transitions, τ.quad = e ∧ τ.isLive = isLive := by
  simp [changesOf]

/-- **Net transitions of a source**: no quad twice, each a difference. -/
structure NetOn (source : Finset EncodedQuad) (transitions : List NetQuadTransition) : Prop where
  effective : Toggle.Effective source (changesOf transitions)
  flips : ∀ τ ∈ transitions, τ.isLive = !τ.wasLive

namespace NetOn

variable {source : Finset EncodedQuad} {transitions : List NetQuadTransition}

variable (h : NetOn source transitions)
include h

theorem nodup : (transitions.map (·.quad)).Nodup := by
  have := h.effective.nodup
  rwa [changesOf, map_map] at this

theorem mem_iff {τ : NetQuadTransition} (hτ : τ ∈ transitions) :
    τ.quad ∈ source ↔ τ.wasLive = true := by
  have hdiffers := h.effective.differs (τ.quad, τ.isLive) (mem_changesOf.mpr ⟨τ, hτ, rfl, rfl⟩)
  rw [hdiffers, h.flips τ hτ, Bool.not_eq_false']

theorem congr {source' : Finset EncodedQuad}
    (hsame : ∀ τ ∈ transitions, τ.quad ∈ source' ↔ τ.quad ∈ source) :
    NetOn source' transitions where
  effective := by
    refine ⟨h.effective.nodup, fun c hc => ?_⟩
    obtain ⟨τ, hτ, hquad, _⟩ := mem_changesOf.mp (show (c.1, c.2) ∈ changesOf transitions from hc)
    rw [← h.effective.differs c hc, ← hquad, hsame τ hτ]
  flips := h.flips

end NetOn

/-! ## Rows that stand for quads -/

structure Represents (sp : IndexSpaces) (rows : Finset QueryQuad) (source : Finset EncodedQuad) :
    Prop where
  mem_iff : ∀ e, e ∈ source ↔ ∃ q ∈ rows, Denotes sp e q
  denoted : ∀ q ∈ rows, ∃ e, Denotes sp e q

/-- **A slot indexes a set of quads**: the index facts hold of rows that stand for the set. -/
def Indexes (sp : IndexSpaces) (next : QueryTermId) (source : Finset EncodedQuad) : Prop :=
  ∃ rows, Exact sp next rows ∧ Represents sp rows source

variable {sp : IndexSpaces} {next : QueryTermId} {rows : Finset QueryQuad} {r : TermResolver}
  {source : Finset EncodedQuad} {transitions : List NetQuadTransition}
  {changes : List (QueryQuad × Bool)} {plan : IndexUpdatePlan}

/-- **Changed rows stand for the changed set.** -/
theorem represents_stagePlan (hnum : Numbered sp next rows) (hr : Resolved sp next r)
    (hplan : plan.mappings = r.mappings)
    (hforall : List.Forall₂ (ChangeOf sp rows r) transitions changes)
    (hrep : Represents sp rows source) (hnet : NetOn source transitions) :
    Represents (sp.stagePlan plan) (Toggle.apply rows changes)
      (Toggle.apply source (changesOf transitions)) := by
  have hdenotes := stagePlan_denotes_iff hr hplan
  have hnodup := (effective_changes hnum hr hnet.nodup hforall).nodup
  refine ⟨fun e => ?_, fun q hq => ?_⟩
  · rw [mem_apply hnet.effective.nodup]
    constructor
    · rintro (hnew | ⟨hold, hkept⟩)
      · -- inserted by a transition, whose change puts its row in
        obtain ⟨τ, hτ, rfl, hlive⟩ := mem_changesOf.mp hnew
        obtain ⟨⟨q, isLive⟩, hmem, hc⟩ := exists_change hforall hτ
        obtain rfl : isLive = true := hc.live.trans hlive
        exact ⟨q, (mem_apply hnodup).mpr (Or.inl hmem), (hdenotes _ _).mpr hc.maps⟩
      · obtain ⟨q, hq, hden⟩ := (hrep.mem_iff e).mp hold
        refine ⟨q, (mem_apply hnodup).mpr (Or.inr ⟨hq, fun hdead => hkept ?_⟩),
          (hdenotes _ _).mpr (hden.mapsQuad r)⟩
        obtain ⟨τ, hτ, hc⟩ := exists_transition hforall hdead
        refine mem_changesOf.mpr ⟨τ, hτ, ?_, hc.live.symm⟩
        exact hr.mapsQuad_inj hnum hc.maps (hden.mapsQuad r)
    · rintro ⟨q, hq, hden⟩
      have hmaps := (hdenotes _ _).mp hden
      rcases (mem_apply hnodup).mp hq with hnew | ⟨hold, hkept⟩
      · obtain ⟨τ, hτ, hc⟩ := exists_transition hforall hnew
        exact Or.inl (mem_changesOf.mpr ⟨τ, hτ, hr.mapsQuad_inj hnum hc.maps hmaps, hc.live.symm⟩)
      refine Or.inr ⟨(hrep.mem_iff e).mpr ⟨q, hold, hr.denotes_of_mem hnum hold hmaps⟩,
        fun hdead => hkept ?_⟩
      obtain ⟨τ, hτ, rfl, hlive⟩ := mem_changesOf.mp hdead
      obtain ⟨⟨q', isLive⟩, hmem, hc⟩ := exists_change hforall hτ
      obtain rfl : q' = q := hr.mapsQuad_unique hc.maps hmaps
      obtain rfl : isLive = false := hc.live.trans hlive
      exact hmem
  · rcases (mem_apply hnodup).mp hq with hnew | ⟨hold, _⟩
    · obtain ⟨τ, _, hc⟩ := exists_transition hforall hnew
      exact ⟨τ.quad, (hdenotes _ _).mpr hc.maps⟩
    · obtain ⟨e, hden⟩ := hrep.denoted q hold
      exact ⟨e, (hdenotes _ _).mpr (hden.mapsQuad r)⟩

/-- **An index update changes the set that the slot indexes** by the transitions. -/
theorem planIndexUpdate_indexes {slots : IndexSlot → IndexSpaces} {header : IndexHeader}
    {slot : IndexSlot} (hslot : IndexSlot.decode header.activeSlot = some slot)
    (hindex : Indexes (slots slot) header.nextQueryId source) (hnet : NetOn source transitions)
    (hplan : planIndexUpdate slots header transitions = some plan) :
    plan.slot = slot ∧ Indexes ((slots slot).stagePlan plan) (plan.nextQueryId header)
      (Toggle.apply source (changesOf transitions)) := by
  obtain ⟨rows, hexact, hrep⟩ := hindex
  have hconsistent : Consistent (slots slot) rows transitions :=
    ⟨hnet.nodup, hnet.flips, fun τ hτ => by rw [← hnet.mem_iff hτ, hrep.mem_iff]⟩
  obtain ⟨hplanSlot, r, hr, hmappings, hforall, hexact'⟩ :=
    planIndexUpdate_spec hslot hexact hconsistent hplan
  exact ⟨hplanSlot, _, hexact',
    represents_stagePlan hexact.toNumbered hr hmappings hforall hrep hnet⟩

/-! ## Quad mutations -/

/-- A quad became live or dead within a commit. -/
inductive QuadMutation where
  | insert (quad : EncodedQuad)
  | remove (quad : EncodedQuad)
  deriving DecidableEq

namespace QuadMutation

/-- The quad, and whether it is live afterwards. -/
def change : QuadMutation → EncodedQuad × Bool
  | .insert quad => (quad, true)
  | .remove quad => (quad, false)

end QuadMutation

/-- The mutations that `write_quad_state` records from a source: each one when the quad changes
its state. -/
def Recorded (source : Finset EncodedQuad) : List QuadMutation → Prop
  | [] => True
  | m :: ms => (m.change.1 ∈ source ↔ m.change.2 = false) ∧
      Recorded (Toggle.change source m.change) ms

def mutate (source : Finset EncodedQuad) (mutations : List QuadMutation) : Finset EncodedQuad :=
  Toggle.apply source (mutations.map QuadMutation.change)

/-- One mutation: the quad's transition, if it has one, ends in the new state. -/
def coalesceMutation (transitions : List NetQuadTransition) (m : QuadMutation) :
    List NetQuadTransition :=
  if transitions.any fun τ => τ.quad = m.change.1 then
    transitions.map fun τ => if τ.quad = m.change.1 then { τ with isLive := m.change.2 } else τ
  else transitions ++ [⟨m.change.1, !m.change.2, m.change.2⟩]

/-- The net transitions of a commit, listed by first use. -/
def coalescedTransitions (mutations : List QuadMutation) : List NetQuadTransition :=
  (mutations.foldl coalesceMutation []).filter fun τ => τ.wasLive ≠ τ.isLive

/-- What the loop over the mutations keeps: each transition goes from the first state to the
present one, and a quad without a transition has not changed. -/
structure Coalesced (start now : Finset EncodedQuad) (transitions : List NetQuadTransition) :
    Prop where
  nodup : (transitions.map (·.quad)).Nodup
  was : ∀ τ ∈ transitions, τ.quad ∈ start ↔ τ.wasLive = true
  is : ∀ τ ∈ transitions, τ.quad ∈ now ↔ τ.isLive = true
  others : ∀ e, (∀ τ ∈ transitions, τ.quad ≠ e) → (e ∈ now ↔ e ∈ start)

variable {now start : Finset EncodedQuad}

variable {m : QuadMutation} {τ : NetQuadTransition}

theorem mem_coalesceMutation (hτ : τ ∈ coalesceMutation transitions m) :
    (τ ∈ transitions ∧ τ.quad ≠ m.change.1) ∨
      (∃ σ ∈ transitions, σ.quad = m.change.1 ∧ τ = { σ with isLive := m.change.2 }) ∨
      ((∀ σ ∈ transitions, σ.quad ≠ m.change.1) ∧ τ = ⟨m.change.1, !m.change.2, m.change.2⟩) := by
  unfold coalesceMutation at hτ
  split at hτ
  · obtain ⟨σ, hσ, rfl⟩ := mem_map.mp hτ
    split_ifs with hquad
    · exact Or.inr (Or.inl ⟨σ, hσ, hquad, rfl⟩)
    · exact Or.inl ⟨hσ, hquad⟩
  · next hany =>
    have hnone : ∀ σ ∈ transitions, σ.quad ≠ m.change.1 := by simpa using hany
    rcases mem_append.mp hτ with hτ | hτ
    · exact Or.inl ⟨hτ, hnone τ hτ⟩
    · exact Or.inr (Or.inr ⟨hnone, mem_singleton.mp hτ⟩)

theorem quads_coalesceMutation (transitions : List NetQuadTransition) (m : QuadMutation) :
    (coalesceMutation transitions m).map (·.quad) =
      if m.change.1 ∈ transitions.map (·.quad) then transitions.map (·.quad)
      else transitions.map (·.quad) ++ [m.change.1] := by
  have hany : (transitions.any fun τ => τ.quad = m.change.1) = true ↔
      m.change.1 ∈ transitions.map (·.quad) := by
    simp
  unfold coalesceMutation
  simp only [hany]
  split
  · rw [map_map]
    refine map_congr_left fun τ _ => ?_
    dsimp only [comp]
    split
    · rfl
    · rfl
  · rw [map_append]
    rfl

theorem Coalesced.step (h : Coalesced start now transitions)
    (hm : m.change.1 ∈ now ↔ m.change.2 = false) :
    Coalesced start (Toggle.change now m.change) (coalesceMutation transitions m) where
  nodup := by
    rw [quads_coalesceMutation]
    split
    · exact h.nodup
    · next hnew => exact nodup_append_comm.mp (nodup_cons.mpr ⟨hnew, h.nodup⟩)
  was := by
    intro τ hτ
    rcases mem_coalesceMutation hτ with ⟨hτ, _⟩ | ⟨σ, hσ, _, rfl⟩ | ⟨hnone, rfl⟩
    · exact h.was τ hτ
    · exact h.was σ hσ
    · rw [← h.others _ hnone, hm, Bool.not_eq_true']
  is := by
    intro τ hτ
    rw [mem_change]
    rcases mem_coalesceMutation hτ with ⟨hτ, hne⟩ | ⟨σ, _, hquad, rfl⟩ | ⟨_, rfl⟩
    · rw [if_neg hne, h.is τ hτ]
    · rw [if_pos hquad]
    · rw [if_pos rfl]
  others := by
    intro e he
    have hmem : e ∉ (coalesceMutation transitions m).map (·.quad) := by simpa using he
    rw [quads_coalesceMutation] at hmem
    have hold : e ∉ transitions.map (·.quad) ∧ e ≠ m.change.1 := by
      split at hmem
      · next hthere => exact ⟨hmem, fun heq => hmem (heq ▸ hthere)⟩
      · simpa [not_or] using hmem
    rw [mem_change, if_neg hold.2, h.others e (by simpa using hold.1)]

variable {mutations : List QuadMutation}

theorem Coalesced.foldl (h : Coalesced start now transitions) (hrec : Recorded now mutations) :
    Coalesced start (mutate now mutations) (mutations.foldl coalesceMutation transitions) := by
  induction mutations generalizing now transitions with
  | nil => exact h
  | cons m ms ih => exact ih (h.step hrec.1) hrec.2

theorem coalesced_start (source : Finset EncodedQuad) : Coalesced source source [] where
  nodup := nodup_nil
  was := by simp
  is := by simp
  others := by simp

/-- The transitions that are kept are the differences between the two states. -/
theorem Coalesced.mem_iff (h : Coalesced start now transitions) :
    τ ∈ transitions.filter (fun τ => τ.wasLive ≠ τ.isLive) ↔
      (τ.quad ∈ start ↔ τ.wasLive = true) ∧ (τ.quad ∈ now ↔ τ.isLive = true) ∧
        τ.wasLive ≠ τ.isLive := by
  rw [mem_filter, decide_eq_true_iff]
  constructor
  · rintro ⟨hτ, hne⟩
    exact ⟨h.was τ hτ, h.is τ hτ, hne⟩
  · rintro ⟨hwas, his, hne⟩
    obtain ⟨σ, hσ, hquad⟩ : ∃ σ ∈ transitions, σ.quad = τ.quad := by
      by_contra! hnone
      have hsame := h.others _ hnone
      rw [hwas, his, ← Bool.eq_iff_iff] at hsame
      exact hne hsame.symm
    have hwas' := h.was σ hσ
    have his' := h.is σ hσ
    rw [hquad, hwas, ← Bool.eq_iff_iff] at hwas'
    rw [hquad, his, ← Bool.eq_iff_iff] at his'
    obtain rfl : σ = τ := by
      cases σ
      cases τ
      simp_all
    exact ⟨hσ, hne⟩

theorem Coalesced.netOn (h : Coalesced start now transitions) :
    NetOn start (transitions.filter fun τ => τ.wasLive ≠ τ.isLive) where
  effective := by
    refine ⟨?_, fun c hc => ?_⟩
    · rw [changesOf, map_map]
      exact h.nodup.sublist (filter_sublist.map _)
    obtain ⟨τ, hτ, hquad, hlive⟩ := mem_changesOf.mp (show (c.1, c.2) ∈ changesOf _ from hc)
    obtain ⟨hwas, _, hne⟩ := h.mem_iff.mp hτ
    rw [← hquad, ← hlive, hwas, Bool.eq_not.mpr hne, Bool.not_eq_true']
  flips := fun τ hτ => Bool.eq_not.mpr (h.mem_iff.mp hτ).2.2.symm

theorem Coalesced.apply_eq (h : Coalesced start now transitions) :
    Toggle.apply start (changesOf (transitions.filter fun τ => τ.wasLive ≠ τ.isLive)) = now := by
  have hchange : ∀ (e : EncodedQuad) (isLive : Bool),
      (e, isLive) ∈ changesOf (transitions.filter fun τ => τ.wasLive ≠ τ.isLive) ↔
        (e ∈ start ↔ isLive = false) ∧ (e ∈ now ↔ isLive = true) := by
    intro e isLive
    rw [mem_changesOf]
    constructor
    · rintro ⟨τ, hτ, rfl, rfl⟩
      obtain ⟨hwas, his, hne⟩ := h.mem_iff.mp hτ
      rw [hwas, his, Bool.eq_not.mpr hne, Bool.not_eq_true']
      exact ⟨Iff.rfl, Iff.rfl⟩
    · rintro ⟨hwas, his⟩
      refine ⟨⟨e, !isLive, isLive⟩, h.mem_iff.mpr ⟨?_, his, by simp⟩, rfl, rfl⟩
      rw [Bool.not_eq_true']
      exact hwas
  apply Finset.ext
  intro e
  rw [mem_apply h.netOn.effective.nodup, hchange, hchange]
  simp only [Bool.true_eq_false, Bool.false_eq_true, iff_true, iff_false]
  tauto

/-- **The transitions of recorded mutations** are net transitions of the source, and take it to
where the mutations take it. -/
theorem netOn_coalescedTransitions
    (h : Recorded source mutations) : NetOn source (coalescedTransitions mutations) ∧
      Toggle.apply source (changesOf (coalescedTransitions mutations)) = mutate source mutations :=
  ⟨((coalesced_start source).foldl h).netOn, ((coalesced_start source).foldl h).apply_eq⟩

/-! ## What mutations leave alone -/

theorem mem_mutate_of_notMem {e : EncodedQuad}
    (h : ∀ m ∈ mutations, m.change.1 ≠ e) : e ∈ mutate source mutations ↔ e ∈ source := by
  induction mutations generalizing source with
  | nil => rfl
  | cons m ms ih =>
    have hm := h m mem_cons_self
    show e ∈ mutate (change source m.change) ms ↔ e ∈ source
    rw [ih fun m' hm' => h m' (mem_cons_of_mem _ hm'), mem_change, if_neg hm.symm]

/-- Only the state of the mutated quads counts. -/
theorem Recorded.congr {source' : Finset EncodedQuad} (h : Recorded source mutations)
    (hsame : ∀ m ∈ mutations, m.change.1 ∈ source' ↔ m.change.1 ∈ source) :
    Recorded source' mutations := by
  induction mutations generalizing source source' with
  | nil => trivial
  | cons m ms ih =>
    refine ⟨(hsame m mem_cons_self).trans h.1, ih h.2 fun m' hm' => ?_⟩
    rw [mem_change, mem_change, hsame m' (mem_cons_of_mem _ hm')]

theorem exists_mutation (hτ : τ ∈ coalescedTransitions mutations) :
    ∃ m ∈ mutations, m.change.1 = τ.quad := by
  have hall : ∀ σ ∈ mutations.foldl coalesceMutation [], ∃ m ∈ mutations, m.change.1 = σ.quad := by
    refine foldlRecOn (motive := fun ts : List NetQuadTransition =>
      ∀ σ ∈ ts, ∃ m ∈ mutations, m.change.1 = σ.quad)
      mutations _ (by simp) fun ts ih m hm σ hσ => ?_
    rcases mem_coalesceMutation hσ with ⟨hσ, _⟩ | ⟨ρ, hρ, _, rfl⟩ | ⟨_, rfl⟩
    · exact ih σ hσ
    · exact ih ρ hρ
    · exact ⟨m, hm, rfl⟩
  exact hall τ (mem_filter.mp hτ).1

/-! ## Staged quad states -/

/-- The mutation that `write_quad_state` records when a quad turns live or dead. -/
def recordedMutation (quad : EncodedQuad) : Bool → Bool → List QuadMutation
  | false, true => [.insert quad]
  | true, false => [.remove quad]
  | _, _ => []

/-- Recording goes on with the state of one quad. -/
theorem Recorded.append {quad : EncodedQuad} {wasLive isLive : Bool}
    (h : Recorded source mutations)
    (hwas : quad ∈ mutate source mutations ↔ wasLive = true) :
    Recorded source (mutations ++ recordedMutation quad wasLive isLive) ∧
      ∀ e, e ∈ mutate source (mutations ++ recordedMutation quad wasLive isLive) ↔
        if e = quad then isLive = true else e ∈ mutate source mutations := by
  induction mutations generalizing source with
  | nil =>
    have hstart : quad ∈ source ↔ wasLive = true := hwas
    have hsame : wasLive = isLive →
        ∀ e, e ∈ source ↔ if e = quad then isLive = true else e ∈ source := by
      rintro rfl e
      split
      · next heq => rw [heq, hstart]
      · rfl
    cases wasLive with
    | false =>
      cases isLive with
      | false => exact ⟨trivial, hsame rfl⟩
      | true => exact ⟨⟨by simpa [QuadMutation.change] using hstart, trivial⟩,
          fun e => mem_change (c := (quad, true))⟩
    | true =>
      cases isLive with
      | false => exact ⟨⟨by simpa [QuadMutation.change] using hstart, trivial⟩,
          fun e => mem_change (c := (quad, false))⟩
      | true => exact ⟨trivial, hsame rfl⟩
  | cons m ms ih =>
    obtain ⟨hrest, hmem⟩ := ih h.2 hwas
    exact ⟨⟨h.1, hrest⟩, hmem⟩

/-- What a write batch holds of quads: the rows it will write, the states it has given them and
the mutations it will publish. -/
structure WriteBatch where
  writes : List (EncodedQuad × Option DotSet)
  pendingQuadStates : EncodedQuad → Option (Option DotSet)
  quadMutations : List QuadMutation

namespace WriteBatch

def empty : WriteBatch := ⟨[], fun _ => none, []⟩

variable {ε : Type} (quads : EncodedQuad → Except ε DotSet)

def currentQuadDots (batch : WriteBatch) (quad : EncodedQuad) : Except ε DotSet :=
  match batch.pendingQuadStates quad with
  | some state => .ok (state.getD ∅)
  | none => quads quad

/-- Stage a quad's dots; true when that turns the quad live or dead. -/
def writeQuadState (batch : WriteBatch) (quad : EncodedQuad) (dots : List Dot) :
    Except ε (Bool × WriteBatch) := do
  let dots : DotSet := ExtTreeSet.ofList dots compare
  let previous ← batch.currentQuadDots quads quad
  let wasLive := !previous.isEmpty
  let isLive := !dots.isEmpty
  let state := if isLive then some dots else none
  .ok (wasLive != isLive, {
    writes := batch.writes ++ [(quad, state)]
    pendingQuadStates := Function.update batch.pendingQuadStates quad (some state)
    quadMutations := batch.quadMutations ++ recordedMutation quad wasLive isLive })

/-- The dots of quads once the batch is written. -/
def stored (batch : WriteBatch) : EncodedQuad → Except ε DotSet :=
  batch.writes.foldl (fun rows w => Function.update rows w.1 (.ok (w.2.getD ∅))) quads

/-- A quad is live when its row can be read and has a dot. -/
def live : Except ε DotSet → Bool
  | .ok dots => !dots.isEmpty
  | .error _ => false

/-- What a sequence of staged states keeps, from a source that holds the quads of the sequence
that were live at its start. -/
structure Staged (touched source : Finset EncodedQuad) (batch : WriteBatch) : Prop where
  current : batch.currentQuadDots quads = batch.stored quads
  others : ∀ e ∉ touched, batch.stored quads e = quads e
  recorded : Recorded source batch.quadMutations
  live_iff : ∀ e, e ∈ mutate source batch.quadMutations ↔
    e ∈ touched ∧ live (batch.stored quads e) = true

variable {quads} {batch batch' : WriteBatch} {touched : Finset EncodedQuad}

theorem Staged.step (h : Staged quads touched source batch) {quad : EncodedQuad}
    (hquad : quad ∈ touched) {dots : List Dot} {changed : Bool}
    (hwrite : batch.writeQuadState quads quad dots = .ok (changed, batch')) :
    Staged quads touched source batch' := by
  obtain ⟨previous, hprevious, hwrite⟩ := Fallible.bind_eq_ok.mp hwrite
  set next : DotSet := ExtTreeSet.ofList dots compare
  have hstate : (if !next.isEmpty then some next else none).getD ∅ = next := by
    split
    · rfl
    · next hempty => exact (ExtTreeSet.isEmpty_iff.mp (by simpa using hempty)).symm
  have hstored : batch'.stored quads = update (batch.stored quads) quad (.ok next) := by
    cases hwrite
    simp only [stored, foldl_append, foldl_cons, foldl_nil, hstate]
  have hmutations : batch'.quadMutations =
      batch.quadMutations ++ recordedMutation quad (!previous.isEmpty) (!next.isEmpty) := by
    cases hwrite
    rfl
  have hwas : quad ∈ mutate source batch.quadMutations ↔ (!previous.isEmpty) = true := by
    rw [h.live_iff, and_iff_right hquad, ← h.current, hprevious]
    rfl
  obtain ⟨hrecorded, hmem⟩ := h.recorded.append hwas
  refine ⟨?_, fun e he => ?_, hmutations ▸ hrecorded, fun e => ?_⟩
  · rw [hstored, ← h.current]
    funext e
    cases hwrite
    by_cases he : e = quad
    · subst he
      simp only [currentQuadDots, update_self]
      exact congrArg Except.ok hstate
    · simp only [currentQuadDots, update_of_ne he]
  · rw [hstored, update_of_ne (ne_of_mem_of_not_mem hquad he).symm, h.others e he]
  · rw [hmutations, hmem, hstored]
    by_cases heq : e = quad
    · rw [if_pos heq, heq, update_self, and_iff_right hquad]
      rfl
    · rw [if_neg heq, update_of_ne heq, h.live_iff]

/-- The calls of a batch, one after another. -/
def writeQuadStates (quads : EncodedQuad → Except ε DotSet)
    (calls : List (EncodedQuad × List Dot)) : Except ε WriteBatch :=
  calls.foldlM (fun batch call => (batch.writeQuadState quads call.1 call.2).map Prod.snd)
    empty

/-- **The net transitions of a batch** are exactly the quads whose liveness differs between its
start and its end, once each. -/
theorem coalesced_transitions_exact {calls : List (EncodedQuad × List Dot)}
    (h : writeQuadStates quads calls = .ok batch) :
    ((coalescedTransitions batch.quadMutations).map (·.quad)).Nodup ∧
      ∀ τ, τ ∈ coalescedTransitions batch.quadMutations ↔
        τ.wasLive = live (quads τ.quad) ∧
        τ.isLive = live (batch.stored quads τ.quad) ∧ τ.wasLive ≠ τ.isLive := by
  set touched := (calls.map Prod.fst).toFinset
  set source := touched.filter fun e => live (quads e) = true
  have hstaged : Staged quads touched source batch := by
    refine Fallible.foldlM_preserves (fun call hcall acc next hacc hnext => ?_) h
      ⟨rfl, fun _ _ => rfl, trivial, fun e => Finset.mem_filter⟩
    obtain ⟨⟨changed, batch'⟩, hwrite, rfl⟩ := Fallible.map_eq_ok.mp hnext
    exact hacc.step (mem_toFinset.mpr (mem_map_of_mem hcall)) hwrite
  have hc := (coalesced_start source).foldl hstaged.recorded
  refine ⟨hc.nodup.sublist (filter_sublist.map _), fun τ => ?_⟩
  rw [coalescedTransitions, hc.mem_iff, hstaged.live_iff, Finset.mem_filter]
  by_cases hquad : τ.quad ∈ touched
  · rw [and_iff_right hquad, and_iff_right hquad, ← Bool.eq_iff_iff, ← Bool.eq_iff_iff,
      eq_comm, eq_comm (a := live _)]
  · -- a quad that no call names has neither a transition nor a difference
    rw [hstaged.others _ hquad]
    constructor
    · rintro ⟨hwas, his, hne⟩
      simp_all
    · rintro ⟨hwas, his, hne⟩
      exact absurd (hwas.trans his.symm) hne

/-- A live quad is staged dead and live again, which cancels; a dead one ends live. -/
def cancellingCalls : List (EncodedQuad × List Dot) :=
  [(⟨0, 0, 0, 1⟩, []), (⟨0, 0, 0, 0⟩, [⟨1, 1⟩]), (⟨0, 0, 0, 1⟩, [⟨1, 2⟩])]

def oneLiveRow (quad : EncodedQuad) : Except Unit DotSet :=
  .ok (if quad = ⟨0, 0, 0, 1⟩ then ExtTreeSet.ofList [⟨1, 1⟩] compare else ∅)

theorem coalesced_transitions_exact_live : ∃ batch : WriteBatch,
    writeQuadStates oneLiveRow cancellingCalls = .ok batch ∧ batch.quadMutations.length = 3 ∧
    ⟨⟨0, 0, 0, 0⟩, false, true⟩ ∈ coalescedTransitions batch.quadMutations ∧
    ∀ τ ∈ coalescedTransitions batch.quadMutations, τ.quad ≠ ⟨0, 0, 0, 1⟩ := by
  have h : writeQuadStates oneLiveRow cancellingCalls = .ok _ := rfl
  have hexact := (coalesced_transitions_exact h).2
  refine ⟨_, h, rfl, (hexact _).mpr (by decide +kernel), fun τ hτ hquad => ?_⟩
  obtain ⟨hwas, his, hne⟩ := (hexact τ).mp hτ
  rw [hwas, his, hquad] at hne
  exact hne (by decide +kernel)

end WriteBatch

end Craqle
