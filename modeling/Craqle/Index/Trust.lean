import Craqle.Index.Rebuild

/-! # Trust in the index

A snapshot's index is trusted when there is no projection debt and the header is ready. The
ready slot then lags behind the source by the commits that are in debt (`Lags`): it indexes a
set from which the source differs by their transitions. Without debts it indexes the source.

This needs that what an owner of the gate commits was staged from the present header. The batch
of `fail_projection_debt` breaks it: it marks the header failed and drops the debt without the
gate, and an owner that staged its update before commits a ready header over it. The slot then
misses the rows of the failed commit for good, and no debt tells.
-/

namespace Craqle

open Function IndexSlot IndexState
open Commit CommitPhase Finset IndexDb IndexHeader IndexHeaderRead IndexWrite Option
open Transition (Reachable anyStep)

/-! ## Debts -/

def CommitPhase.debt : CommitPhase → Option Nat
  | .owing d | .repairing d | .repairStaged d _ | .failing d | .failStaged d _ => some d
  | _ => none

variable {phase : CommitPhase}

theorem CommitPhase.owes_of_debt (h : phase.debt ≠ none) :
    phase.owes = true := by
  cases phase with
  | owing | repairing | repairStaged | failing | failStaged => rfl
  | _ => simp [debt] at h

theorem CommitPhase.debt_of_pending (h : phase.pending = true) :
    phase.debt = none := by
  cases phase with
  | owing | repairing | repairStaged | failing | failStaged => simp [pending] at h
  | _ => rfl

/-- What the index owes for a commit: its debt and its mutations. -/
def Commit.owed (c : Commit) : Option (Nat × List QuadMutation) :=
  c.phase.debt.map fun d => (d, c.mutations)

def IndexState.debtor (s : IndexState) (graph : TermId) : Option (Nat × List QuadMutation) :=
  (s.commits graph).bind Commit.owed

variable {env : IndexEnv} {s s' : IndexState} {graph : TermId} {c : Commit} {ms : List QuadMutation}
  {d : Nat}

theorem Commit.owed_eq_some :
    c.owed = some (d, ms) ↔ c.phase.debt = some d ∧ c.mutations = ms := by
  simp [owed]

theorem Commit.owed_of_pending (h : c.phase.pending = true) : c.owed = none := by
  rw [owed, debt_of_pending h]
  rfl

variable {gate : Option GateOwner} {mutations : List QuadMutation} {db : IndexDb}

theorem CommitMove.debt_eq {gate' : Option GateOwner} {phase' : CommitPhase}
    (hmove : CommitMove env db graph mutations gate phase gate' (some phase')) :
    phase'.debt = phase.debt := by
  cases hmove with
  | _ => rfl

theorem debtor_of_commit (hc : s.commits graph = some c) : s.debtor graph = c.owed := by
  rw [debtor, hc, bind_some]

theorem debtor_of_commits (h : s'.commits = s.commits) : s'.debtor = s.debtor := by
  funext g
  rw [debtor, debtor, h]

variable {c' : Option Commit}

theorem debtor_setCommit {owed : Option (Nat × List QuadMutation)}
    (h : s'.commits = Function.update s.commits graph c') (howed : c'.bind Commit.owed = owed) :
    s'.debtor = update s.debtor graph owed := by
  funext g
  rw [debtor, h]
  by_cases hg : g = graph
  · subst hg
    rw [update_self, update_self, howed]
  · rw [update_of_ne hg, update_of_ne hg]
    rfl

/-- A commit changes or ends while what is owed for it stays. -/
theorem debtor_kept (h : s'.commits = update s.commits graph c')
    (howed : c'.bind Commit.owed = s.debtor graph) : s'.debtor = s.debtor := by
  rw [debtor_setCommit h howed, update_eq_self]

theorem debtor_of_ended {g : TermId}
    (h : s'.debtor = update s.debtor graph none) (hd : s'.debtor g = some (d, ms)) :
    g ≠ graph ∧ s.debtor g = some (d, ms) := by
  rw [h] at hd
  by_cases hg : g = graph
  · rw [hg, update_self] at hd
    simp at hd
  · rw [update_of_ne hg] at hd
    exact ⟨hg, hd⟩

def DebtsInFlight (s : IndexState) : Prop :=
  ∀ d ∈ s.db.debts, ∃ graph ms, s.debtor graph = some (d, ms)

structure DebtsInv (s : IndexState) : Prop where
  opened : ∀ graph c, s.commits graph = some c → s.opened = true
  below : s.opened = true → ∀ d ∈ s.db.debts, d < s.debtNext
  recorded : ∀ graph d ms, s.debtor graph = some (d, ms) → d ∈ s.db.debts
  unique : ∀ graph graph' d ms ms', s.debtor graph = some (d, ms) →
    s.debtor graph' = some (d, ms') → graph = graph'

theorem DebtsInv.no_debtor (h : DebtsInv s) (hdebts : s.db.debts = ∅) (graph : TermId) :
    s.debtor graph = none := by
  by_contra hsome
  obtain ⟨⟨d, ms⟩, hd⟩ := ne_none_iff_exists'.mp hsome
  have hmem := h.recorded graph d ms hd
  rw [hdebts] at hmem
  simp at hmem

theorem DebtsInv.frame (h : DebtsInv s) (hdebtor : s'.debtor = s.debtor)
    (hdebts : s'.db.debts = s.db.debts) (hnext : s'.debtNext = s.debtNext)
    (hopened : s'.opened = s.opened)
    (hopen : ∀ graph c, s'.commits graph = some c → s.opened = true) : DebtsInv s' where
  opened graph c hc := hopened.trans (hopen graph c hc)
  below := by
    rw [hopened, hdebts, hnext]
    exact h.below
  recorded := by
    rw [hdebtor, hdebts]
    exact h.recorded
  unique := by
    rw [hdebtor]
    exact h.unique

theorem DebtsInv.ended (h : DebtsInv s) (hdebtor : s'.debtor = update s.debtor graph none)
    (hdebts : s'.db.debts ⊆ s.db.debts)
    (hkept : ∀ d ∈ s.db.debts, d ∉ s'.db.debts → ∃ ms, s.debtor graph = some (d, ms))
    (hnext : s'.debtNext = s.debtNext) (hopened : s'.opened = s.opened)
    (hopen : ∀ graph c, s'.commits graph = some c → s.opened = true) : DebtsInv s' := by
  refine ⟨fun g c hc => hopened.trans (hopen g c hc), ?_, ?_, ?_⟩
  · intro ho d hd
    rw [hnext]
    exact h.below (hopened.symm.trans ho) d (hdebts hd)
  · intro g d ms hd
    obtain ⟨hg, hd⟩ := debtor_of_ended hdebtor hd
    by_contra hdropped
    obtain ⟨ms', hown⟩ := hkept d (h.recorded g d ms hd) hdropped
    exact hg (h.unique g graph d ms ms' hd hown)
  · intro g g' d ms ms' hd hd'
    exact h.unique g g' d ms ms' (debtor_of_ended hdebtor hd).2 (debtor_of_ended hdebtor hd').2

/-! ## How far the ready slot is behind -/

/-- The set `shown` lags behind the source by the commits in debt: it is the source where none
is, and else the source is what the commit's transitions make of it. -/
structure Lags (s : IndexState) (shown : Finset EncodedQuad) : Prop where
  same : ∀ e, s.debtor e.graph = none → (e ∈ shown ↔ e ∈ s.db.source)
  net : ∀ graph d ms, s.debtor graph = some (d, ms) → NetOn shown (coalescedTransitions ms)
  behind : ∀ graph d ms, s.debtor graph = some (d, ms) → ∀ e, e.graph = graph →
    (e ∈ s.db.source ↔ e ∈ Toggle.apply shown (changesOf (coalescedTransitions ms)))

def ShownInv (s : IndexState) : Prop :=
  DebtsInFlight s → ∀ header slot, s.db.header = .valid header → header.state = .ready →
    IndexSlot.decode header.activeSlot = some slot →
    ∃ shown, Lags s shown ∧ Indexes (s.db.slots slot) header.nextQueryId shown

def StagedInv (s : IndexState) : Prop :=
  ∀ graph c u, s.commits graph = some c → c.phase.update = some u → ∃ buildActive sequence,
    u.index = stageIndex s.db.header s.db.slots buildActive sequence
      (coalescedTransitions c.mutations)

structure TrustInv (s : IndexState) : Prop where
  debts : DebtsInv s
  staged : StagedInv s
  shown : ShownInv s

variable {shown : Finset EncodedQuad}

theorem Lags.frame (h : Lags s shown)
    (hdebtor : s'.debtor = s.debtor) (hsource : s'.db.source = s.db.source) : Lags s' shown := by
  refine ⟨?_, ?_, ?_⟩
  · rw [hdebtor, hsource]
    exact h.same
  · rw [hdebtor]
    exact h.net
  · rw [hdebtor, hsource]
    exact h.behind

/-- Where nothing is owed the source does not lag. -/
theorem lags_source (hnone : ∀ g, s.debtor g = none)
    (hsource : s.db.source = shown) : Lags s shown := by
  refine ⟨fun _ _ => by rw [hsource], fun g d ms hd => ?_, fun g d ms hd => ?_⟩
  · rw [hnone] at hd
    simp at hd
  · rw [hnone] at hd
    simp at hd

theorem ShownInv.frame (h : ShownInv s) (hdebtor : s'.debtor = s.debtor)
    (hdebts : s'.db.debts = s.db.debts) (hsource : s'.db.source = s.db.source)
    (hheader : s'.db.header = s.db.header)
    (hslots : ∀ active, rebuildActive s.db.header = some active →
      s'.db.slots active = s.db.slots active) : ShownInv s' := by
  intro hflight header slot hvalid hready hslot
  rw [hheader] at hvalid
  rw [DebtsInFlight, hdebts, hdebtor] at hflight
  obtain ⟨shown, hlags, hindex⟩ := h hflight header slot hvalid hready hslot
  refine ⟨shown, hlags.frame hdebtor hsource, ?_⟩
  rwa [hslots slot (by rw [hvalid]; exact hslot)]

theorem shownInv_of_not_ready
    (h : ∀ header, s.db.header = .valid header → header.state ≠ .ready) : ShownInv s := by
  intro _ header _ hvalid hready
  exact absurd hready (h header hvalid)

variable {slots : IndexSlot → IndexSpaces}

theorem planIndexUpdate_congr {slots' : IndexSlot → IndexSpaces} {header : IndexHeader}
    (h : ∀ slot, decode header.activeSlot = some slot → slots' slot = slots slot)
    (transitions : List NetQuadTransition) :
    planIndexUpdate slots' header transitions = planIndexUpdate slots header transitions := by
  unfold planIndexUpdate
  cases hslot : decode header.activeSlot with
  | none => simp only [bind, bind_none]
  | some slot => simp only [bind, bind_some, h slot hslot]

variable {header : IndexHeaderRead}

theorem stageIndex_congr {slots' : IndexSlot → IndexSpaces}
    (h : ∀ active, rebuildActive header = some active → slots' active = slots active)
    (buildActive : Bool) (sequence : Nat) (transitions : List NetQuadTransition) :
    stageIndex header slots' buildActive sequence transitions =
      stageIndex header slots buildActive sequence transitions := by
  cases header with
  | valid header => simp only [stageIndex, planIndexUpdate_congr h]
  | absent => rfl
  | malformed => rfl
  | legacy header => rfl

/-! ## Writing a staged update -/

variable {transitions : List NetQuadTransition} {sequence : Nat}

theorem stageIndex_ready {buildActive : Bool}
    {header' : IndexHeader} {slot : IndexSlot}
    (hheader : (stageIndex header slots buildActive sequence transitions).writeHeader header =
      .valid header')
    (hready : header'.state = .ready) (hslot : decode header'.activeSlot = some slot) :
    ∃ old plan, header = .valid old ∧ old.state = .ready ∧
      decode old.activeSlot = some slot ∧
      planIndexUpdate slots old transitions = some plan ∧
      stageIndex header slots buildActive sequence transitions = .plan plan ∧
      header'.nextQueryId = plan.nextQueryId old := by
  have hfailed : ∀ previous reason, valid
      (failedFrom previous reason) ≠ .valid header' := by
    rintro previous reason ⟨⟩
    simp [failedFrom] at hready
  cases header with
  | absent | legacy h => simp [stageIndex, writeHeader] at hheader
  | malformed =>
    simp only [stageIndex] at hheader
    split at hheader
    · exact absurd hheader (hfailed _ _)
    · simp [writeHeader] at hheader
  | valid old =>
    have hkeep : old.state ≠ .ready →
        (keep).writeHeader (.valid old) ≠ .valid header' := by
      rintro hstate ⟨⟩
      exact hstate hready
    simp only [stageIndex] at hheader ⊢
    split at hheader
    · next hstate => exact absurd hheader (hkeep (by simp [hstate]))
    · next hstate => exact absurd hheader (hkeep (by simp [hstate]))
    · next hstate =>
      split at hheader
      · exact absurd hheader (hfailed _ _)
      rename_i hcoherent
      split at hheader
      · next plan hplan =>
        rw [if_neg hcoherent]
        simp only [writeHeader] at hheader
        unfold IndexUpdatePlan.nextQueryId
        split at hheader
        · next h' hh' =>
          obtain rfl := valid.inj hheader
          rw [(planIndexUpdate_slot hplan).2 _ hh'] at hslot
          exact ⟨old, plan, rfl, hstate, hslot, hplan, rfl, by simp [hh']⟩
        · next hnone =>
          obtain rfl := valid.inj hheader
          exact ⟨old, plan, rfl, hstate, hslot, hplan, rfl, by simp [hnone]⟩
      · exact absurd hheader (hfailed _ _)

/-- **A written update moves the ready slot on** by its transitions. -/
theorem stageIndex_indexes {buildActive : Bool}
    {header' : IndexHeader} {slot : IndexSlot} {P : Finset EncodedQuad → Prop}
    (hshown : ∀ old, header = .valid old → old.state = .ready → decode old.activeSlot = some slot →
      ∃ shown, P shown ∧ Indexes (slots slot) old.nextQueryId shown)
    (hnet : ∀ shown, P shown → NetOn shown transitions)
    (hheader : (stageIndex header slots buildActive sequence transitions).writeHeader header =
      .valid header')
    (hready : header'.state = .ready) (hslot : decode header'.activeSlot = some slot) :
    ∃ shown, P shown ∧
      Indexes ((stageIndex header slots buildActive sequence transitions).writeSlots slots slot)
        header'.nextQueryId (Toggle.apply shown (changesOf transitions)) := by
  obtain ⟨old, plan, hold, holdReady, holdSlot, hplan, hstage, hnext⟩ :=
    stageIndex_ready hheader hready hslot
  obtain ⟨shown, hP, hindex⟩ := hshown old hold holdReady holdSlot
  obtain ⟨hplanSlot, hindex'⟩ := planIndexUpdate_indexes holdSlot hindex (hnet shown hP) hplan
  refine ⟨shown, hP, ?_⟩
  rw [hstage, hnext]
  show Indexes (update slots plan.slot _ slot) _ _
  rw [hplanSlot, update_self]
  exact hindex'

/-! ## Steps and lag -/

variable {e : EncodedQuad}

/-- The transitions of a graph's commit leave other graphs alone. -/
theorem mem_apply_other (hgraph : ∀ m ∈ mutations, m.change.1.graph = graph)
    (hnet : NetOn shown (coalescedTransitions mutations)) (he : e.graph ≠ graph) :
    e ∈ Toggle.apply shown (changesOf (coalescedTransitions mutations)) ↔ e ∈ shown := by
  have hnone : ∀ isLive, (e, isLive) ∉ changesOf (coalescedTransitions mutations) := by
    intro isLive hmem
    obtain ⟨τ, hτ, rfl, _⟩ := mem_changesOf.mp hmem
    obtain ⟨m, hm, hquad⟩ := exists_mutation hτ
    exact he (hquad ▸ hgraph m hm)
  rw [Toggle.mem_apply hnet.effective.nodup]
  simp [hnone]

/-- Sets that agree on a quad agree on it after the same changes. -/
theorem mem_apply_congr {shown' : Finset EncodedQuad} (hnet : NetOn shown transitions)
    (he : e ∈ shown' ↔ e ∈ shown) : e ∈ Toggle.apply shown' (changesOf transitions) ↔
      e ∈ Toggle.apply shown (changesOf transitions) := by
  rw [Toggle.mem_apply hnet.effective.nodup, Toggle.mem_apply hnet.effective.nodup, he]

theorem debtor_graph (h : CommitsInv env s)
    (hd : s.debtor graph = some (d, ms)) : ∀ m ∈ ms, m.change.1.graph = graph := by
  obtain ⟨c, hc, howed⟩ := bind_eq_some_iff.mp hd
  obtain ⟨_, rfl⟩ := owed_eq_some.mp howed
  exact (h.commits graph c hc).graph

theorem Lags.netOn_pending (h : Lags s shown)
    (hok : CommitOk env s graph c) (hc : s.commits graph = some c)
    (hpending : c.phase.pending = true) : NetOn shown (coalescedTransitions c.mutations) := by
  refine (netOn_coalescedTransitions (hok.recorded hpending)).1.congr fun τ hτ => ?_
  obtain ⟨m, hm, hquad⟩ := exists_mutation hτ
  refine h.same _ ?_
  rw [← hquad, hok.graph m hm, debtor_of_commit hc, owed_of_pending hpending]

theorem Lags.settle (h : Lags s shown)
    (hcommits : CommitsInv env s) (hgraph : ∀ m ∈ ms, m.change.1.graph = graph)
    (hnet : NetOn shown (coalescedTransitions ms))
    (hdebtor : s'.debtor = update s.debtor graph none)
    (hother : ∀ e, e.graph ≠ graph → (e ∈ s'.db.source ↔ e ∈ s.db.source))
    (hself : ∀ e, e.graph = graph → (e ∈ s'.db.source ↔
      e ∈ Toggle.apply shown (changesOf (coalescedTransitions ms)))) :
    Lags s' (Toggle.apply shown (changesOf (coalescedTransitions ms))) := by
  refine ⟨fun e he => ?_, fun g d ms' hd => ?_, fun g d ms' hd e he => ?_⟩
  · by_cases heg : e.graph = graph
    · rw [hself e heg]
    · rw [hdebtor, update_of_ne heg] at he
      rw [mem_apply_other hgraph hnet heg, hother e heg]
      exact h.same e he
  · obtain ⟨hg, hold⟩ := debtor_of_ended hdebtor hd
    refine (h.net g d ms' hold).congr fun τ hτ => ?_
    obtain ⟨m, hm, hquad⟩ := exists_mutation hτ
    exact mem_apply_other hgraph hnet (hquad ▸ debtor_graph hcommits hold m hm ▸ hg)
  · obtain ⟨hg, hold⟩ := debtor_of_ended hdebtor hd
    rw [hother e (he ▸ hg), h.behind g d ms' hold e he]
    exact (mem_apply_congr (h.net g d ms' hold) (mem_apply_other hgraph hnet (he ▸ hg))).symm

theorem Lags.mem_mutate (h : Lags s shown) (hok : CommitOk env s graph c)
    (hc : s.commits graph = some c) (hpending : c.phase.pending = true) (he : e.graph = graph) :
    e ∈ mutate s.db.source c.mutations ↔
      e ∈ Toggle.apply shown (changesOf (coalescedTransitions c.mutations)) := by
  obtain ⟨hnet, happly⟩ := netOn_coalescedTransitions (hok.recorded hpending)
  rw [← happly]
  refine (mem_apply_congr hnet (h.same e ?_)).symm
  rw [he, debtor_of_commit hc, owed_of_pending hpending]

/-! ## The steps of commits -/

/-- What an update stages for the index it stages from the header of `db`. -/
def StagesFrom (db : IndexDb) (mutations : List QuadMutation) (u : StagedUpdate) : Prop :=
  ∃ buildActive sequence, u.index =
    stageIndex db.header db.slots buildActive sequence (coalescedTransitions mutations)

theorem StagedInv.frame (h : StagedInv s) (hheader : s'.db.header = s.db.header)
    (hslots : ∀ active, rebuildActive s.db.header = some active →
      s'.db.slots active = s.db.slots active)
    (hcommits : ∀ g c u, s'.commits g = some c → c.phase.update = some u →
      s.commits g = some c ∨ StagesFrom s.db c.mutations u) : StagedInv s' := by
  intro g c u hc hu
  obtain ⟨buildActive, sequence, hindex⟩ : StagesFrom s.db c.mutations u := by
    rcases hcommits g c u hc hu with hold | hnew
    · exact h g c u hold hu
    · exact hnew
  exact ⟨buildActive, sequence, by rw [hindex, hheader, stageIndex_congr hslots]⟩

theorem update_eq_none {g : TermId} (h : CommitsInv env s)
    (hown : s.gate = some (.commit graph)) (hg : g ≠ graph) (hc : s.commits g = some c) :
    c.phase.update = none := by
  by_contra hsome
  obtain ⟨u, hu⟩ := ne_none_iff_exists'.mp hsome
  have hgate := (h.commits g c hc).gate (owns_of_update hu)
  rw [hown] at hgate
  exact hg (GateOwner.commit.inj (some.inj hgate)).symm

theorem stagedInv_ended (hcommits : s'.commits = update s.commits graph none)
    (hnone : ∀ g c, g ≠ graph → s.commits g = some c → c.phase.update = none) :
    StagedInv s' := by
  intro g c u hc hu
  rw [hcommits] at hc
  by_cases hg : g = graph
  · rw [hg, update_self] at hc
    simp at hc
  · rw [update_of_ne hg] at hc
    rw [hnone g c hg hc] at hu
    simp at hu

theorem stageIndexUpdate_index
    {u : StagedUpdate} (h : stageIndexUpdate env db sequence mutations = some u) :
    StagesFrom db mutations u := by
  unfold stageIndexUpdate at h
  simp only [bind, bind_eq_some_iff] at h
  obtain ⟨delta, _, h⟩ := h
  cases h
  exact ⟨_, sequence, rfl⟩

theorem CommitMove.update_staged {gate' : Option GateOwner} {phase' : CommitPhase}
    {u : StagedUpdate} (hmove : CommitMove env db graph mutations gate phase gate' (some phase'))
    (hu : phase'.update = some u) : StagesFrom db mutations u := by
  cases hmove with
  | stage hstage | stageRepair hstage =>
    cases hu
    exact stageIndexUpdate_index hstage
  | _ => simp [CommitPhase.update] at hu

/-- A commit changes, and what it stages it stages from the present header. -/
theorem StagedInv.setCommit (h : StagedInv s) (hheader : s'.db.header = s.db.header)
    (hslots : s'.db.slots = s.db.slots) (hcommits : s'.commits = update s.commits graph c')
    (hnew : ∀ c u, c' = some c → c.phase.update = some u → StagesFrom s.db c.mutations u) :
    StagedInv s' := by
  refine h.frame hheader (fun _ _ => by rw [hslots]) fun g c u hc hu => ?_
  rw [hcommits] at hc
  by_cases hg : g = graph
  · rw [hg, update_self] at hc
    exact Or.inr (hnew c u hc hu)
  · rw [update_of_ne hg] at hc
    exact Or.inl hc

theorem trustInv_start (h : TrustInv s)
    (hopened : s.opened = true) (hguard : s.commits graph = none) :
    TrustInv (s.setCommit graph (some ⟨mutations, .started⟩)) := by
  have hdebtor : (s.setCommit graph (some ⟨mutations, .started⟩)).debtor = s.debtor := by
    refine debtor_kept rfl ?_
    rw [debtor, hguard]
    rfl
  refine ⟨h.debts.frame hdebtor rfl rfl rfl fun _ _ _ => hopened, ?_,
    h.shown.frame hdebtor rfl rfl rfl fun _ _ => rfl⟩
  refine h.staged.setCommit rfl rfl rfl ?_
  rintro _ _ ⟨⟩ ⟨⟩

/-- A commit ends without a batch. A debt that it leaves behind is one of no commit any more. -/
theorem trustInv_abandoned (h : TrustInv s) (hc : s.commits graph = some c)
    (gate : Option GateOwner) : TrustInv { s.setCommit graph none with gate := gate } := by
  have hopen := h.debts.opened graph c hc
  have hdebtor : debtor { s.setCommit graph none with gate := gate } =
      update s.debtor graph none := debtor_setCommit rfl rfl
  refine ⟨h.debts.ended hdebtor (fun _ hd => hd) (fun d hd hnot => absurd hd hnot) rfl rfl
    (fun _ _ _ => hopen), h.staged.setCommit rfl rfl rfl ?_, ?_⟩
  · rintro _ _ ⟨⟩
  cases howed : s.debtor graph with
  | none =>
    rw [← howed, update_eq_self] at hdebtor
    exact h.shown.frame hdebtor rfl rfl rfl fun _ _ => rfl
  | some owed =>
    intro hflight
    obtain ⟨g, ms, hd⟩ := hflight owed.1 (h.debts.recorded graph owed.1 owed.2 howed)
    obtain ⟨hg, hd⟩ := debtor_of_ended hdebtor hd
    exact absurd (h.debts.unique g graph owed.1 ms owed.2 hd howed) hg

theorem trustInv_move (h : TrustInv s) (hc : s.commits graph = some c) {phase : Option CommitPhase}
    (hmove : CommitMove env s.db graph c.mutations s.gate c.phase gate phase) :
    TrustInv
      { s.setCommit graph (phase.map fun phase => ⟨c.mutations, phase⟩) with gate := gate } := by
  cases phase with
  | none => exact trustInv_abandoned h hc gate
  | some phase =>
    have hdebtor : debtor
        { s.setCommit graph (some ⟨c.mutations, phase⟩) with gate := gate } = s.debtor := by
      refine debtor_kept rfl ?_
      rw [debtor_of_commit hc, bind_some, owed, owed, hmove.debt_eq]
    refine ⟨h.debts.frame hdebtor rfl rfl rfl fun _ _ _ => h.debts.opened graph c hc, ?_,
      h.shown.frame hdebtor rfl rfl rfl fun _ _ => rfl⟩
    refine h.staged.setCommit rfl rfl rfl ?_
    rintro _ u ⟨⟩ hu
    exact hmove.update_staged hu

/-- **An owner writes** its source rows together with what it has staged. -/
theorem trustInv_write (hinv : CommitsInv env s) (h : TrustInv s)
    {update : StagedUpdate} (hc : s.commits graph = some ⟨mutations, .staged update⟩) :
    TrustInv
      { s.setCommit graph none with
        db := (s.db.writeSource mutations).write update
        gate := none } := by
  have hok := hinv.commits graph _ hc
  have hnone : s.debtor graph = none := debtor_of_commit hc
  have hdebtor : debtor
      { s.setCommit graph none with
        db := (s.db.writeSource mutations).write update
        gate := none } = Function.update s.debtor graph none := debtor_setCommit rfl rfl
  have hsame := hdebtor
  rw [← hnone, update_eq_self] at hsame
  refine ⟨h.debts.frame hsame rfl rfl rfl fun _ _ _ => h.debts.opened graph _ hc,
    stagedInv_ended rfl fun g c hg hc' => update_eq_none hinv (hok.gate rfl) hg hc', ?_⟩
  intro hflight header slot hvalid hready hslot
  rw [DebtsInFlight, hsame] at hflight
  obtain ⟨buildActive, sequence, hindex⟩ := h.staged graph _ update hc rfl
  have hshown := fun old hold hready hslot => h.shown hflight old slot hold hready hslot
  simp only [write, writeSource] at hvalid ⊢
  rw [hindex] at hvalid ⊢
  obtain ⟨shown, hlags, hindexes⟩ := stageIndex_indexes hshown
    (fun shown hlags => hlags.netOn_pending hok hc rfl) hvalid hready hslot
  refine ⟨_, ?_, hindexes⟩
  exact hlags.settle hinv hok.graph (hlags.netOn_pending hok hc rfl) hdebtor
    (source_other hok.graph) fun e he => hlags.mem_mutate hok hc rfl he

/-- **A commit without the gate writes** its source rows together with a debt. -/
theorem trustInv_writeDebt (hinv : CommitsInv env s) (h : TrustInv s)
    (hc : s.commits graph = some ⟨mutations, .indebted⟩) :
    TrustInv
      { s.setCommit graph (some ⟨mutations, .owing s.debtNext⟩) with
        db := (s.db.writeSource mutations).insertDebt s.debtNext
        debtNext := s.debtNext + 1 } := by
  have hok := hinv.commits graph _ hc
  have hopen := h.debts.opened graph _ hc
  set s' : IndexState := { s.setCommit graph (some ⟨mutations, .owing s.debtNext⟩) with
    db := (s.db.writeSource mutations).insertDebt s.debtNext
    debtNext := s.debtNext + 1 } with hs'
  have hdebtor : s'.debtor = update s.debtor graph (some (s.debtNext, mutations)) :=
    debtor_setCommit rfl rfl
  have hself : s'.debtor graph = some (s.debtNext, mutations) := by
    rw [hdebtor, update_self]
  have hother : ∀ g, g ≠ graph → s'.debtor g = s.debtor g := by
    intro g hg
    rw [hdebtor, update_of_ne hg]
  have hfresh : ∀ g ms, s.debtor g ≠ some (s.debtNext, ms) := by
    intro g ms hd
    exact Nat.lt_irrefl _ (h.debts.below hopen _ (h.debts.recorded g _ ms hd))
  -- a debtor is the new one, or one from before
  have hcases : ∀ g d ms, s'.debtor g = some (d, ms) →
      (g = graph ∧ d = s.debtNext ∧ ms = mutations) ∨ (g ≠ graph ∧ s.debtor g = some (d, ms)) := by
    intro g d ms hd
    by_cases hg : g = graph
    · rw [hg, hself] at hd
      cases hd
      exact Or.inl ⟨hg, rfl, rfl⟩
    · rw [hother g hg] at hd
      exact Or.inr ⟨hg, hd⟩
  refine ⟨⟨fun _ _ _ => hopen, ?_, ?_, ?_⟩, ?_, ?_⟩
  · intro _ d hd
    rcases mem_insert.mp hd with rfl | hd
    · exact Nat.lt_succ_self _
    · exact Nat.lt_succ_of_lt (h.debts.below hopen d hd)
  · intro g d ms hd
    rcases hcases g d ms hd with ⟨_, rfl, _⟩ | ⟨_, hold⟩
    · exact mem_insert_self _ _
    · exact mem_insert_of_mem (h.debts.recorded g d ms hold)
  · intro g g' d ms ms' hd hd'
    rcases hcases g d ms hd with ⟨hg, rfl, _⟩ | ⟨_, hold⟩
    · rcases hcases g' _ ms' hd' with ⟨hg', _, _⟩ | ⟨_, hold'⟩
      · rw [hg, hg']
      · exact absurd hold' (hfresh g' ms')
    · rcases hcases g' d ms' hd' with ⟨_, rfl, _⟩ | ⟨_, hold'⟩
      · exact absurd hold (hfresh g ms)
      · exact h.debts.unique g g' d ms ms' hold hold'
  · refine h.staged.setCommit rfl rfl rfl ?_
    rintro _ _ ⟨⟩ ⟨⟩
  · intro hflight header slot hvalid hready hslot
    have hflight₀ : DebtsInFlight s := by
      intro d hd
      obtain ⟨g, ms, hg⟩ := hflight d (mem_insert_of_mem hd)
      rcases hcases g d ms hg with ⟨_, rfl, _⟩ | ⟨_, hold⟩
      · exact absurd (h.debts.below hopen _ hd) (Nat.lt_irrefl _)
      · exact ⟨g, ms, hold⟩
    obtain ⟨shown, hlags, hindex⟩ := h.shown hflight₀ header slot hvalid hready hslot
    refine ⟨shown, ⟨fun e he => ?_, fun g d ms hd => ?_, fun g d ms hd e he => ?_⟩, hindex⟩
    · have hg : e.graph ≠ graph := by
        intro hg
        rw [hg, hself] at he
        simp at he
      rw [hother _ hg] at he
      exact (hlags.same e he).trans (source_other hok.graph e hg).symm
    · rcases hcases g d ms hd with ⟨_, _, rfl⟩ | ⟨_, hold⟩
      · exact hlags.netOn_pending hok hc rfl
      · exact hlags.net g d ms hold
    · rcases hcases g d ms hd with ⟨rfl, _, rfl⟩ | ⟨hg, hold⟩
      · exact hlags.mem_mutate hok hc rfl he
      · exact (source_other hok.graph e (he ▸ hg)).trans (hlags.behind g d ms hold e he)

theorem debtsInv_settled (h : DebtsInv s) (hd : s.debtor graph = some (d, ms))
    (hdebtor : s'.debtor = update s.debtor graph none)
    (hdebts : s'.db.debts = s.db.debts.erase d) (hnext : s'.debtNext = s.debtNext)
    (hopened : s'.opened = s.opened) (hopen : s.opened = true) : DebtsInv s' := by
  refine h.ended hdebtor ?_ ?_ hnext hopened fun _ _ _ => hopen
  · rw [hdebts]
    exact erase_subset _ _
  intro d' hd' hnot
  rw [hdebts, mem_erase, not_and] at hnot
  obtain rfl : d' = d := by
    by_contra hne
    exact hnot hne hd'
  exact ⟨ms, hd⟩

/-- **A debtor repairs**: it writes what it has staged and drops its debt. -/
theorem trustInv_writeRepair (hinv : CommitsInv env s) (h : TrustInv s) {debt : Nat}
    {update : StagedUpdate} (hc : s.commits graph = some ⟨mutations, .repairStaged debt update⟩) :
    TrustInv
      { s.setCommit graph none with
        db := (s.db.write update).removeDebt debt
        gate := none } := by
  have hok := hinv.commits graph _ hc
  have hd : s.debtor graph = some (debt, mutations) := debtor_of_commit hc
  have hdebtor : debtor
      { s.setCommit graph none with
        db := (s.db.write update).removeDebt debt
        gate := none } = Function.update s.debtor graph none := debtor_setCommit rfl rfl
  refine ⟨debtsInv_settled h.debts hd hdebtor rfl rfl rfl (h.debts.opened graph _ hc),
    stagedInv_ended rfl fun g c hg hc' => update_eq_none hinv (hok.gate rfl) hg hc', ?_⟩
  intro hflight header slot hvalid hready hslot
  have hflight₀ : DebtsInFlight s := by
    intro d hmem
    by_cases heq : d = debt
    · exact ⟨graph, mutations, heq ▸ hd⟩
    · obtain ⟨g, ms, hg⟩ := hflight d (mem_erase.mpr ⟨heq, hmem⟩)
      exact ⟨g, ms, (debtor_of_ended hdebtor hg).2⟩
  obtain ⟨buildActive, sequence, hindex⟩ := h.staged graph _ update hc rfl
  have hshown := fun old hold hready hslot => h.shown hflight₀ old slot hold hready hslot
  simp only [write, removeDebt] at hvalid ⊢
  rw [hindex] at hvalid ⊢
  obtain ⟨shown, hlags, hindexes⟩ := stageIndex_indexes hshown
    (fun shown hlags => hlags.net graph debt mutations hd) hvalid hready hslot
  refine ⟨_, ?_, hindexes⟩
  exact hlags.settle hinv hok.graph (hlags.net graph debt mutations hd) hdebtor
    (fun _ _ => Iff.rfl) fun e he => hlags.behind graph debt mutations hd e he

/-- **A debtor gives up**: the header fails and the debt is dropped, without the gate. This is
sound when no one has staged an update from the header before. -/
theorem trustInv_writeFailure (h : TrustInv s) {debt : Nat} {previous : Option IndexHeader}
    (hc : s.commits graph = some ⟨mutations, .failStaged debt previous⟩)
    (halone : ∀ g c, s.commits g = some c → c.phase.update = none) :
    TrustInv { s.setCommit graph none with db := s.db.failDebt debt previous } := by
  have hd : s.debtor graph = some (debt, mutations) := debtor_of_commit hc
  have hdebtor : debtor
      { s.setCommit graph none with db := s.db.failDebt debt previous } =
        update s.debtor graph none := debtor_setCommit rfl rfl
  refine ⟨debtsInv_settled h.debts hd hdebtor rfl rfl rfl (h.debts.opened graph _ hc),
    stagedInv_ended rfl fun g c _ hc' => halone g c hc', shownInv_of_not_ready ?_⟩
  rintro header ⟨⟩
  simp [failedFrom]

/-! ## The other steps -/

theorem maintain_opened (hstep : IndexStep env s .maintain s') :
    s'.opened = s.opened ∧ s'.debtNext = s.debtNext := by
  cases hstep with
  | rebuild hstep | recover hstep => cases hstep with
    | _ => exact ⟨rfl, rfl⟩

theorem trustInv_maintain (hinv : IndexInv env s) (h : TrustInv s)
    (hstep : IndexStep env s .maintain s') : TrustInv s' := by
  have hm := maintain_maintained hinv hstep
  obtain ⟨hopened, hnext⟩ := maintain_opened hstep
  have hdebtor := debtor_of_commits hm.commits
  refine ⟨h.debts.frame hdebtor hm.debts hnext hopened fun g c hc => ?_,
    h.staged.frame hm.header hm.slots fun g c u hc _ => Or.inl ?_,
    h.shown.frame hdebtor hm.debts hm.source hm.header hm.slots⟩
  · rw [hm.commits] at hc
    exact h.debts.opened g c hc
  · rwa [hm.commits] at hc

/-- **The switch** shows the source. Commits in flight wait, so nothing is owed or staged. -/
theorem trustInv_switch (hinv : IndexInv env s) (h : TrustInv s)
    (hstep : IndexStep env s .switch s') : TrustInv s' := by
  cases hstep with
  | @switch r candidate build target hphase hdone hcoverage =>
    obtain ⟨_, hslot, hbuild, hindex⟩ := switch_indexes hinv hphase hcoverage
    have hwaits : ∀ g c, s.commits g = some c → c.phase.owns = false ∧ c.phase.owes = false :=
      fun g c hc => waits_of_switching hinv.commits (by rw [hphase]; rfl) (by simp [hbuild]) hc
    have hnone : ∀ g, s.debtor g = none := by
      intro g
      by_contra hsome
      obtain ⟨⟨d, ms⟩, hd⟩ := ne_none_iff_exists'.mp hsome
      obtain ⟨c, hc, howed⟩ := bind_eq_some_iff.mp hd
      have howes := owes_of_debt
        (ne_none_iff_exists'.mpr ⟨d, (owed_eq_some.mp howed).1⟩)
      rw [(hwaits g c hc).2] at howes
      simp at howes
    have hdebtor : debtor
        { s with
          db := s.db.switch candidate r.active
          gate := none
          maintenance := .recovering } = s.debtor := debtor_of_commits rfl
    refine ⟨h.debts.frame hdebtor rfl rfl rfl fun g c hc => h.debts.opened g c hc, ?_, ?_⟩
    · intro g c u hc hu
      have howns := owns_of_update hu
      rw [(hwaits g c hc).1] at howns
      simp at howns
    intro _ header slot hvalid hready hdecode
    cases hvalid
    obtain rfl : r.inactive = slot := by
      have hdecode : decode candidate.activeSlot = some slot := hdecode
      rw [hslot, decode_encode] at hdecode
      exact some.inj hdecode
    refine ⟨s.db.source, lags_source (fun g => ?_) rfl, hindex⟩
    rw [hdebtor, hnone g]

theorem debtor_of_quiet (h : s.Quiet) (graph : TermId) : s.debtor graph = none := by
  rw [debtor, h graph]
  rfl

/-- Without commits in flight nothing is owed or staged. -/
theorem trustInv_quiet (hquiet : s.Quiet)
    (hbelow : s.opened = true → ∀ d ∈ s.db.debts, d < s.debtNext) (hshown : ShownInv s) :
    TrustInv s := by
  have hnone : ∀ {P : Prop} g c, s.commits g = some c → P := by
    intro P g c hc
    rw [hquiet g] at hc
    simp at hc
  have howed : ∀ {P : Prop} g owed, s.debtor g = some owed → P := by
    intro P g owed hd
    rw [debtor_of_quiet hquiet] at hd
    simp at hd
  exact ⟨⟨hnone, hbelow, fun g d ms => howed g (d, ms), fun g _ d ms _ hd _ => howed g (d, ms) hd⟩,
    fun g c u hc => hnone g c hc, hshown⟩

/-- Without commits in flight the debts that are left fail the header. -/
theorem trustInv_failUnrepaired (h : TrustInv s) (hquiet : s.Quiet) (hquiet' : s'.Quiet)
    (hdb : s'.db = s.db.failUnrepairedDebt) : TrustInv s' := by
  have hdebtor : s'.debtor = s.debtor := by
    funext g
    rw [debtor_of_quiet hquiet, debtor_of_quiet hquiet']
  have hdebts : s'.db.debts = ∅ := by
    rw [hdb, failUnrepairedDebt]
    split
    · next hempty => exact hempty
    · rfl
  refine trustInv_quiet hquiet' (by simp [hdebts]) ?_
  rw [failUnrepairedDebt] at hdb
  split at hdb
  · exact h.shown.frame hdebtor (by rw [hdb]) (by rw [hdb]) (by rw [hdb])
      fun _ _ => by rw [hdb]
  · refine shownInv_of_not_ready fun header hvalid => ?_
    rw [hdb] at hvalid
    cases hvalid
    simp [failedFrom]

/-- A crash ends every commit. If it leaves a debt behind, nothing is claimed until reopening. -/
theorem trustInv_crash (h : TrustInv s) (hstep : IndexStep env s .crash s') : TrustInv s' := by
  cases hstep with
  | crash =>
    refine trustInv_quiet (fun _ => rfl) (by simp) fun hflight => ?_
    have hdebts : s.db.debts = ∅ := by
      refine eq_empty_of_forall_notMem fun d hd => ?_
      obtain ⟨g, ms, hg⟩ := hflight d hd
      simp [debtor] at hg
    refine h.shown.frame ?_ rfl rfl rfl (fun _ _ => rfl) hflight
    funext g
    rw [h.debts.no_debtor hdebts]
    rfl

/-! ## Every run -/

/-- A ready index that is opened without debts is exact. -/
structure StartsSound (db : IndexDb) : Prop where
  debts : db.debts = ∅
  ready : ∀ header slot, db.header = .valid header → header.state = .ready →
    IndexSlot.decode header.activeSlot = some slot →
    Indexes (db.slots slot) header.nextQueryId db.source

/-- No commit holds a staged update when the batch of `fail_projection_debt` is committed. -/
def SettlesAlone (s : IndexState) : IndexAction → Prop
  | .failDebt _ => ∀ graph c, s.commits graph = some c → c.phase.update = none
  | _ => True

theorem trustInv_init (hrest : AtRest s) (h : StartsSound s.db) : TrustInv s := by
  have hnone := debtor_of_quiet hrest.quiet
  refine trustInv_quiet hrest.quiet (by simp [h.debts]) ?_
  intro _ header slot hvalid hready hslot
  exact ⟨s.db.source, lags_source hnone rfl, h.ready header slot hvalid hready hslot⟩

/-- **Every allowed step keeps trust.** -/
theorem trustInv_step {action : IndexAction} (hinv : IndexInv env s) (h : TrustInv s)
    (hallowed : SettlesAlone s action) (hstep : IndexStep env s action s') : TrustInv s' := by
  cases action with
  | commit graph =>
    cases hstep with
    | start hopened hlock hguard hrecorded hgraph => exact trustInv_start h hopened hguard
    | move hc hmove => exact trustInv_move h hc hmove
    | write hc => exact trustInv_write hinv.commits h hc
    | writeDebt hc => exact trustInv_writeDebt hinv.commits h hc
    | writeRepair hc => exact trustInv_writeRepair hinv.commits h hc
  | failDebt graph =>
    cases hstep with
    | writeFailure hc => exact trustInv_writeFailure h hc hallowed
  | maintain => exact trustInv_maintain hinv h hstep
  | switch => exact trustInv_switch hinv h hstep
  | failUnrepaired =>
    cases hstep with
    | failUnrepaired hidle hquiet => exact trustInv_failUnrepaired h hquiet hquiet rfl
  | crash => exact trustInv_crash h hstep
  | reopen =>
    cases hstep with
    | reopen hclosed hquiet hidle => exact trustInv_failUnrepaired h hquiet hquiet rfl

theorem trustInv_reachable (h : Reachable (indexSystem env StartsSound) SettlesAlone s) :
    IndexInv env s ∧ TrustInv s := by
  refine h.invariant (P := fun s => IndexInv env s ∧ TrustInv s) (fun s hs => ?_) ?_
  · exact ⟨indexInv_reachable (Reachable.init hs : Reachable (indexSystem env StartsSound) anyStep s),
      trustInv_init hs.1 hs.2⟩
  · intro s action s' hs hallowed hstep
    exact ⟨indexInv_step hs.1 hstep, trustInv_step hs.1 hs.2 hallowed hstep⟩

theorem snapshotAdmission_spec
    (h : snapshotAdmission db sequence = true) : db.debts = ∅ ∧ ∃ header slot,
      db.header = .valid header ∧ header.state = .ready ∧
      decode header.activeSlot = some slot := by
  unfold snapshotAdmission at h
  split at h
  · simp at h
  rename_i hdebts
  refine ⟨not_nonempty_iff_eq_empty.mp hdebts, ?_⟩
  cases hheader : db.header with
  | absent | malformed | legacy header => simp [hheader] at h
  | valid header =>
    simp only [hheader, headerAdmission, snapshotCounter, activeQuerySlot] at h
    split at h
    · simp at h
    · simp at h
    · next hready =>
      cases hslot : decode header.activeSlot with
      | none => simp [hslot] at h
      | some slot => exact ⟨header, slot, rfl, hready, hslot⟩

/-- **Trust in the index is right** in every run in which no commit holds a staged update while
the batch of `fail_projection_debt` is committed: the ready slot of a trusted snapshot indexes
the source of that snapshot. -/
theorem trusted_exact {sequence : Nat} (h : Reachable (indexSystem env StartsSound) SettlesAlone s)
    (htrusted : snapshotAdmission s.db sequence = true) :
    ∃ header slot, s.db.header = .valid header ∧
      IndexSlot.decode header.activeSlot = some slot ∧
      Indexes (s.db.slots slot) header.nextQueryId s.db.source := by
  obtain ⟨_, htrust⟩ := trustInv_reachable h
  obtain ⟨hdebts, header, slot, hvalid, hready, hslot⟩ := snapshotAdmission_spec htrusted
  have hflight : DebtsInFlight s := by
    intro d hd
    rw [hdebts] at hd
    simp at hd
  obtain ⟨shown, hlags, hindex⟩ := htrust.shown hflight header slot hvalid hready hslot
  obtain rfl : shown = s.db.source :=
    ext fun e => hlags.same e (htrust.debts.no_debtor hdebts _)
  exact ⟨header, slot, hvalid, hslot, hindex⟩

/-! ### Two commits on a fresh store -/

def emptySpaces : IndexSpaces where
  orders _ := ⟨∅, ∅⟩
  termToQuery _ := .missing
  queryToTerm _ := .missing
  counters k := if k = .unionDuplicateFree then .value 1 else expectedCounter ∅ k
  revisions _ := .missing

theorem emptySpaces_indexes : Indexes emptySpaces 0 ∅ := by
  refine ⟨∅, ⟨⟨?_, ?_, ?_⟩, fun _ => rfl, fun k hk => ?_, ?_⟩, ⟨?_, ?_⟩⟩
  · simp [emptySpaces]
  · simp [emptySpaces]
  · simp
  · simp [emptySpaces, hk]
  · intro _
    decide
  · simp
  · simp

def freshIndex : IndexDb where
  source := ∅
  slots _ := emptySpaces
  header := .valid .emptyReady
  debts := ∅
  build := none
  cleanup := none
  deltas _ := none

theorem freshIndex_sound : StartsSound freshIndex := by
  refine ⟨rfl, fun header slot hvalid _ _ => ?_⟩
  cases hvalid
  exact emptySpaces_indexes

def secondQuad : EncodedQuad := ⟨2, 11, 12, 14⟩

def firstCommit (phase : CommitPhase) : Commit := ⟨[.insert indexedQuad], phase⟩

def secondCommit (phase : CommitPhase) : Commit := ⟨[.insert secondQuad], phase⟩

/-- A store on which at most graphs 1 and 2 have a commit in flight. -/
def pairState (db : IndexDb) (gate : Option GateOwner) (debtNext : Nat)
    (first second : Option Commit) : IndexState where
  db := db
  opened := true
  gate := gate
  debtNext := debtNext
  commits graph := if graph = 1 then first else if graph = 2 then second else none
  maintenance := .idle

/-- What the first commit stages on a fresh index. -/
def firstPlan : IndexUpdatePlan :=
  { indexedChunk with
    slot := .primary
    header := some ⟨0, .ready, 1, 1, 1, 1, 0, 1, 4⟩ }

theorem firstPlan_staged (db : IndexDb) (hheader : db.header = .valid .emptyReady)
    (hslots : db.slots = fun _ => emptySpaces) (hbuild : db.build = none) :
    stageIndexUpdate env db 0 [.insert indexedQuad] = some ⟨.plan firstPlan, .keep⟩ := by
  have hplan : planIndexUpdate (fun _ => emptySpaces) .emptyReady
      (coalescedTransitions [.insert indexedQuad]) = some firstPlan := by decide +kernel
  have hcoherent : ¬ (emptyReady.readyIsCoherent = false ∨
      emptyReady.fitsSnapshot 0 = false) := by decide
  simp only [stageIndexUpdate, hheader, hslots, hbuild, stageQueryDelta, bind, bind_some,
    stageIndex, show emptyReady.state = .ready from rfl, if_neg hcoherent, hplan]

theorem pairState_owning {allowed : IndexState → IndexAction → Prop}
    (hallowed : ∀ s graph, allowed s (.commit graph)) :
    Reachable (indexSystem unitEnv StartsSound) allowed
      { ((pairState freshIndex none 1 none none).setCommit 1
          (some (firstCommit .started))).setCommit 1 (some (firstCommit .owning)) with
        gate := some (.commit 1) } := by
  have hrest : AtRest (pairState freshIndex none 1 none none) :=
    ⟨rfl, fun g => by simp [pairState], rfl, rfl, rfl⟩
  have hinit : Reachable (indexSystem unitEnv StartsSound) allowed _ :=
    .init ⟨hrest, freshIndex_sound⟩
  have hstarted := reachable_start hinit indexedQuad rfl rfl rfl (Finset.notMem_empty _)
    (hallowed _ _)
  exact reachable_move hstarted 1 rfl .take (hallowed _ _)

theorem trusted_exact_insert :
    ∃ s, Reachable (indexSystem unitEnv StartsSound) SettlesAlone s ∧
      snapshotAdmission s.db 1 = true ∧ indexedQuad ∈ s.db.source ∧
      ∃ header slot, s.db.header = .valid header ∧
        IndexSlot.decode header.activeSlot = some slot ∧
        Indexes (s.db.slots slot) header.nextQueryId s.db.source := by
  have howning : Reachable (indexSystem unitEnv StartsSound) SettlesAlone _ :=
    pairState_owning fun _ _ => trivial
  have hstaged := reachable_move howning 1 rfl (.stage (firstPlan_staged _ rfl rfl rfl)) trivial
  have hwritten := reachable_next hstaged (@IndexStep.write _ _ 1 _ _ rfl) trivial
  have htrusted : snapshotAdmission ((freshIndex.writeSource [.insert indexedQuad]).write
      ⟨.plan firstPlan, .keep⟩) 1 = true := by decide +kernel
  exact ⟨_, hwritten, htrusted, by decide +kernel, trusted_exact hwritten htrusted⟩

/-- The second commit goes into debt while the first one owns the gate, waits too long, and
fails the header after the first one has staged its update. The first commit then writes a ready
header, and the second one's row is missing. -/
theorem trusted_missing_row :
    ∃ s, Reachable (indexSystem unitEnv StartsSound) anyStep s ∧
      snapshotAdmission s.db 1 = true ∧ ∀ header slot, s.db.header = .valid header →
        IndexSlot.decode header.activeSlot = some slot →
        ¬ Indexes (s.db.slots slot) header.nextQueryId s.db.source := by
  have howning : Reachable (indexSystem unitEnv StartsSound) anyStep _ :=
    pairState_owning fun _ _ => trivial
  have hstarted : Reachable (indexSystem unitEnv StartsSound) anyStep
      (IndexState.setCommit _ 2 (some (secondCommit .started))) :=
    reachable_start howning secondQuad rfl rfl rfl (Finset.notMem_empty _) trivial
  have hmissed := reachable_move hstarted 2 rfl .miss trivial
  have hindebted := reachable_move hmissed 2 rfl (.owe rfl) trivial
  have howing := reachable_next hindebted (@IndexStep.writeDebt _ _ 2 _ rfl) trivial
  have hstaged := reachable_move howing 1 rfl (.stage (firstPlan_staged _ rfl rfl rfl)) trivial
  have hlate := reachable_move hstaged 2 rfl .late trivial
  have hread := reachable_move hlate 2 rfl .readHeader trivial
  have hfailed := reachable_next hread (@IndexStep.writeFailure _ _ 2 _ _ _ rfl) trivial
  have hwritten := reachable_next hfailed (@IndexStep.write _ _ 1 _ _ rfl) trivial
  refine ⟨_, hwritten, by decide +kernel, ?_⟩
  rintro header slot ⟨⟩ ⟨⟩ ⟨rows, _, hrep⟩
  obtain ⟨q, _, hden⟩ := (hrep.mem_iff secondQuad).mp (by decide +kernel)
  have hmissing : (IndexSpaces.stagePlan emptySpaces firstPlan).termToQuery secondQuad.graph =
      .missing := by decide +kernel
  exact absurd (hmissing.symm.trans hden.graph) (by simp)

end Craqle
