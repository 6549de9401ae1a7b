import Craqle.Index.Machine

/-! # What holds of commits in flight

A commit that owns the gate owns it alone. A commit whose source rows are not written yet
records mutations of the present source, since all others are of other graphs. While there is a
record of a build, no commit goes on without the gate. What a commit has staged fits the
present build record, since only the owner of the gate writes it; the header may have changed
in the meantime, but not the slot it names.
-/

namespace Craqle

open CommitPhase IndexSlot Option

/-! ## Phases -/

namespace CommitPhase

def owns : CommitPhase → Bool
  | .owning | .staged _ | .repairing _ | .repairStaged _ _ => true
  | _ => false

/-- The source rows are not written yet. -/
def pending : CommitPhase → Bool
  | .started | .missed | .waiting | .owning | .staged _ | .indebted => true
  | _ => false

/-- The commit goes on without the gate, or has done so. -/
def owes : CommitPhase → Bool
  | .indebted | .owing _ | .repairing _ | .repairStaged _ _ | .failing _ | .failStaged _ _ => true
  | _ => false

def update : CommitPhase → Option StagedUpdate
  | .staged update | .repairStaged _ update => some update
  | _ => none

def failure : CommitPhase → Option (Option IndexHeader)
  | .failStaged _ previous => some previous
  | _ => none

theorem owns_of_update {phase : CommitPhase} {u : StagedUpdate} (h : phase.update = some u) :
    phase.owns = true := by
  cases phase with
  | staged => rfl
  | repairStaged => rfl
  | _ => simp [update] at h

theorem owes_of_failure {phase : CommitPhase} {p : Option IndexHeader}
    (h : phase.failure = some p) : phase.owes = true := by
  cases phase with
  | failStaged => rfl
  | _ => simp [failure] at h

end CommitPhase

def Maintenance.owns : Maintenance → Bool
  | .capturing .. | .verifying .. | .switching .. => true
  | .cursor _ _ _ _ _ owned => owned
  | .replaying _ _ _ _ owned => owned
  | _ => false

/-! ## The slot that a header names -/

theorem rebuildActive_previous (header : IndexHeaderRead) :
    decode (header.previous.getD .emptyReady).activeSlot = rebuildActive header := by
  cases header with
  | absent | malformed | legacy h | valid h => rfl

structure NamesSlot (write : IndexWrite) (slot : Option IndexSlot) : Prop where
  plan : ∀ p, write = .plan p → some p.slot = slot ∧
    ∀ header, p.header = some header → IndexSlot.decode header.activeSlot = slot
  failure : ∀ header, write = .failure header → IndexSlot.decode header.activeSlot = slot

theorem stageIndex_namesSlot (header : IndexHeaderRead) (slots : IndexSlot → IndexSpaces)
    (buildActive : Bool) (sequence : Nat) (transitions : List NetQuadTransition) :
    NamesSlot (stageIndex header slots buildActive sequence transitions) (rebuildActive header) := by
  have hkeep : NamesSlot .keep (rebuildActive header) := ⟨by simp, by simp⟩
  cases header with
  | absent => exact hkeep
  | legacy h => exact hkeep
  | malformed =>
    simp only [stageIndex]
    split
    · refine ⟨by simp, ?_⟩
      rintro header' ⟨⟩
      rfl
    · exact hkeep
  | valid h =>
    have hfailed : ∀ reason, NamesSlot (.failure (.failedFrom (some h) reason))
        (rebuildActive (.valid h)) := by
      intro reason
      refine ⟨by simp, ?_⟩
      rintro header' ⟨⟩
      rfl
    simp only [stageIndex]
    split
    · exact hkeep
    · exact hkeep
    · split
      · exact hfailed _
      split
      · next p hp =>
        obtain ⟨hslot, hheader⟩ := planIndexUpdate_slot hp
        refine ⟨?_, by simp⟩
        rintro p' ⟨⟩
        refine ⟨hslot.symm, fun header' hheader' => ?_⟩
        rw [hheader header' hheader']
        rfl
      · exact hfailed _

theorem NamesSlot.writeHeader {write : IndexWrite} {header : IndexHeaderRead}
    (h : NamesSlot write (rebuildActive header)) :
    rebuildActive (write.writeHeader header) = rebuildActive header := by
  cases write with
  | keep => rfl
  | failure header' => exact h.failure header' rfl
  | plan p =>
    simp only [IndexWrite.writeHeader]
    split
    · next header' hheader => exact (h.plan p rfl).2 header' hheader
    · rfl

/-- The other slot is left alone. -/
theorem NamesSlot.writeSlots {write : IndexWrite} {active : IndexSlot}
    (h : NamesSlot write (some active)) (slots : IndexSlot → IndexSpaces) :
    write.writeSlots slots active.other = slots active.other := by
  cases write with
  | keep => rfl
  | failure header => rfl
  | plan p =>
    obtain rfl : p.slot = active := some.inj (h.plan p rfl).1
    exact Function.update_of_ne (other_ne _) _ _

/-! ## One commit -/

structure StagedFrom (env : IndexEnv) (db : IndexDb) (mutations : List QuadMutation)
    (update : StagedUpdate) : Prop where
  delta : stageQueryDelta env db.build (coalescedTransitions mutations) = some update.delta
  index : NamesSlot update.index (rebuildActive db.header)

/-- What holds of a commit in flight. -/
structure CommitOk (env : IndexEnv) (s : IndexState) (graph : TermId) (c : Commit) : Prop where
  gate : c.phase.owns = true → s.gate = some (.commit graph)
  graph : ∀ m ∈ c.mutations, m.change.1.graph = graph
  recorded : c.phase.pending = true → Recorded s.db.source c.mutations
  solvent : c.phase.owes = true → s.db.build = none
  staged : ∀ u, c.phase.update = some u → StagedFrom env s.db c.mutations u
  failing : ∀ p, c.phase.failure = some p →
    IndexSlot.decode (p.getD .emptyReady).activeSlot = rebuildActive s.db.header

variable {env : IndexEnv} {s s' : IndexState} {graph : TermId} {c : Commit}

/-- A commit is not disturbed by steps that leave its gate, its graph, the build record it has
read and the named slot alone. -/
theorem CommitOk.frame (h : CommitOk env s graph c)
    (hgate : s.gate = some (.commit graph) → s'.gate = some (.commit graph))
    (hsource : ∀ e, e.graph = graph → (e ∈ s'.db.source ↔ e ∈ s.db.source))
    (hbuild : c.phase.owns = true → s'.db.build = s.db.build)
    (hsolvent : c.phase.owes = true → s.db.build = none → s'.db.build = none)
    (hactive : c.phase.owns = true ∨ c.phase.owes = true →
      rebuildActive s'.db.header = rebuildActive s.db.header) :
    CommitOk env s' graph c where
  gate howns := hgate (h.gate howns)
  graph := h.graph
  recorded hpending := (h.recorded hpending).congr fun m hm => hsource _ (h.graph m hm)
  solvent howes := hsolvent howes (h.solvent howes)
  staged u hu := by
    have howns := owns_of_update hu
    obtain ⟨hdelta, hindex⟩ := h.staged u hu
    refine ⟨?_, ?_⟩
    · rwa [hbuild howns]
    · rwa [hactive (Or.inl howns)]
  failing p hp := by
    rw [hactive (Or.inr (owes_of_failure hp))]
    exact h.failing p hp

variable {db : IndexDb} {mutations : List QuadMutation} {update : StagedUpdate}

theorem stagedFrom_stageIndexUpdate {sequence : Nat}
    (h : stageIndexUpdate env db sequence mutations = some update) :
    StagedFrom env db mutations update := by
  unfold stageIndexUpdate at h
  simp only [bind, bind_eq_some_iff] at h
  obtain ⟨delta, hdelta, h⟩ := h
  cases h
  exact ⟨hdelta, stageIndex_namesSlot _ _ _ _ _⟩

variable {gate : Option GateOwner}

theorem CommitOk.move {phase : CommitPhase} (h : CommitOk env s graph c)
    (hmove : CommitMove env s.db graph c.mutations s.gate c.phase gate (some phase))
    (hdb : s'.db = s.db) (hgate : s'.gate = gate) : CommitOk env s' graph ⟨c.mutations, phase⟩ := by
  obtain ⟨mutations, phase₀⟩ := c
  have hrecorded := h.recorded
  have hsolvent := h.solvent
  have howner := h.gate
  simp only at hmove hrecorded hsolvent howner
  -- the phase after the move: who owns the gate, what is pending, owed, staged
  have build : (phase.owns = true → gate = some (.commit graph)) →
      (phase.pending = true → Recorded s.db.source mutations) →
      (phase.owes = true → s.db.build = none) →
      (∀ u, phase.update = some u → StagedFrom env s.db mutations u) →
      (∀ p, phase.failure = some p →
        decode (p.getD .emptyReady).activeSlot = rebuildActive s.db.header) →
      CommitOk env s' graph ⟨mutations, phase⟩ := by
    intro h1 h2 h3 h4 h5
    refine ⟨fun howns => hgate.trans (h1 howns), h.graph, ?_, ?_, ?_, ?_⟩
    · rwa [hdb]
    · rwa [hdb]
    · rwa [hdb]
    · rwa [hdb]
  have hnoUpdate : ∀ u, (none : Option StagedUpdate) = some u → StagedFrom env s.db mutations u := by
    simp
  have hnoFailure : ∀ p, (none : Option (Option IndexHeader)) = some p →
      decode (p.getD .emptyReady).activeSlot = rebuildActive s.db.header := by simp
  have hno : ∀ {P : Prop}, false = true → P := by simp
  generalize s.gate = gate₀ at hmove howner
  cases hmove with
  | take | granted => exact build (fun _ => rfl) hrecorded hno hnoUpdate hnoFailure
  | miss | wait => exact build hno hrecorded hno hnoUpdate hnoFailure
  | owe hbuild => exact build hno hrecorded (fun _ => hbuild) hnoUpdate hnoFailure
  | stage hstage =>
    refine build howner hrecorded hno ?_ hnoFailure
    rintro u ⟨⟩
    exact stagedFrom_stageIndexUpdate hstage
  | grantedRepair => exact build (fun _ => rfl) hno hsolvent hnoUpdate hnoFailure
  | late | refuseRepair | abandonRepair => exact build hno hno hsolvent hnoUpdate hnoFailure
  | stageRepair hstage =>
    refine build howner hno hsolvent ?_ hnoFailure
    rintro u ⟨⟩
    exact stagedFrom_stageIndexUpdate hstage
  | readHeader =>
    refine build hno hno hsolvent hnoUpdate ?_
    rintro p ⟨⟩
    exact rebuildActive_previous _

theorem CommitMove.gate_other
    {gate' : Option GateOwner} {phase : CommitPhase} {phase' : Option CommitPhase}
    (hmove : CommitMove env db graph mutations gate phase gate' phase')
    (howner : phase.owns = true → gate = some (.commit graph)) {o : GateOwner}
    (ho : o ≠ .commit graph) (hgate : gate = some o) : gate' = some o := by
  have hnot : phase.owns = true → gate' = some o := by
    intro howns
    rw [howner howns] at hgate
    exact absurd (some.inj hgate).symm ho
  cases hmove with
  | take | granted | grantedRepair => simp at hgate
  | refuse | abandon | refuseRepair | abandonRepair => exact hnot rfl
  | _ => exact hgate

/-! ## All commits -/

structure RecordsOk (db : IndexDb) : Prop where
  build : ∀ b, db.build = some b →
    ∃ active, rebuildActive db.header = some active ∧ b.slot = active.other.encode
  cleanup : ∀ r, db.cleanup = some r →
    ∃ active, rebuildActive db.header = some active ∧ r.slot = active.other.encode

/-- **What holds of all commits**, of the gate and of the records. -/
structure CommitsInv (env : IndexEnv) (s : IndexState) : Prop where
  commits : ∀ graph c, s.commits graph = some c → CommitOk env s graph c
  maintenance : s.maintenance.owns = true → s.gate = some .maintenance
  locked : s.maintenance.locks = true → s.Quiet
  records : RecordsOk s.db

theorem RecordsOk.of_active {db' : IndexDb} (h : RecordsOk db)
    (hactive : rebuildActive db'.header = rebuildActive db.header)
    (hbuild : ∀ b, db'.build = some b → ∃ b₀, db.build = some b₀ ∧ b₀.slot = b.slot)
    (hcleanup : ∀ r, db'.cleanup = some r → db.cleanup = some r ∨
      ∃ b₀, db.build = some b₀ ∧ b₀.slot = r.slot) : RecordsOk db' where
  build b hb := by
    obtain ⟨b₀, hb₀, hslot⟩ := hbuild b hb
    rw [hactive, ← hslot]
    exact h.build b₀ hb₀
  cleanup r hr := by
    rw [hactive]
    rcases hcleanup r hr with hr | ⟨b₀, hb₀, hslot⟩
    · exact h.cleanup r hr
    · rw [← hslot]
      exact h.build b₀ hb₀

theorem CommitsInv.commitStep (graph : TermId) (h : CommitsInv env s) {c' : Option Commit}
    {db' : IndexDb} {gate' : Option GateOwner} {next : Nat} (hlock : s.maintenance.locks = false)
    (hgate : ∀ o, o ≠ .commit graph → s.gate = some o → gate' = some o)
    (hsource : ∀ e, e.graph ≠ graph → (e ∈ db'.source ↔ e ∈ s.db.source))
    (hbuild : db'.build = s.db.build ∨ s.gate = some (.commit graph))
    (hsolvent : s.db.build = none → db'.build = none)
    (hactive : rebuildActive db'.header = rebuildActive s.db.header) (hrecords : RecordsOk db')
    (hself : ∀ c, c' = some c → CommitOk env
      { s.setCommit graph c' with db := db', gate := gate', debtNext := next } graph c) :
    CommitsInv env { s.setCommit graph c' with db := db', gate := gate', debtNext := next } where
  commits g c hc := by
    have hc : Function.update s.commits graph c' g = some c := hc
    by_cases hg : g = graph
    · subst hg
      exact hself c (by rwa [Function.update_self] at hc)
    rw [Function.update_of_ne hg] at hc
    have hok := h.commits g c hc
    refine hok.frame ?_ ?_ ?_ (fun _ => hsolvent) (fun _ => hactive)
    · refine hgate _ fun heq => ?_
      exact hg (GateOwner.commit.inj heq)
    · intro e he
      exact hsource e (he ▸ hg)
    · intro howns
      rcases hbuild with hbuild | hown
      · exact hbuild
      · rw [hok.gate howns] at hown
        exact absurd (GateOwner.commit.inj (some.inj hown)) hg
  maintenance howns := hgate _ (by simp) (h.maintenance howns)
  locked hlocks := absurd (hlock.symm.trans hlocks) Bool.false_ne_true
  records := hrecords

/-! ## What a commit writes for a build -/

/-- The cases of a staged delta. -/
inductive DeltaCase (transitions : List NetQuadTransition) :
    Option QueryBuildRecord → DeltaWrite → Prop
  | noBuild : DeltaCase transitions none .keep
  | clearing {b : QueryBuildRecord} (hphase : b.phase = .clear) :
      DeltaCase transitions (some b) .keep
  | nothing {b : QueryBuildRecord} (hphase : b.phase ≠ .clear) (hnil : transitions = []) :
      DeltaCase transitions (some b) .keep
  | overflow {b : QueryBuildRecord} : DeltaCase transitions (some b) (.overflow ⟨b.slot⟩)
  | append {b : QueryBuildRecord} {rows bytes : Nat} (hphase : b.phase ≠ .clear) :
      DeltaCase transitions (some b) (.append b.nextDelta transitions
        { b with
          nextDelta := b.nextDelta + 1
          deltaRows := rows
          deltaBytes := bytes })

theorem stageQueryDelta_cases {build : Option QueryBuildRecord}
    {transitions : List NetQuadTransition} {d : DeltaWrite}
    (h : stageQueryDelta env build transitions = some d) : DeltaCase transitions build d := by
  cases build with
  | none =>
    cases h
    exact .noBuild
  | some b =>
    simp only [stageQueryDelta] at h
    split at h
    · next hphase =>
      cases h
      exact .clearing hphase
    rename_i hphase
    split at h
    · next hnil =>
      cases h
      exact .nothing hphase hnil
    split at h
    · cases h
      exact .overflow
    · split at h
      · simp at h
      · cases h
        exact .append hphase

/-- What a commit writes keeps the records for the right slot. -/
theorem RecordsOk.write (h : RecordsOk db) (hstaged : StagedFrom env db mutations update) :
    RecordsOk (db.write update) := by
  refine h.of_active hstaged.index.writeHeader ?_ ?_
  · intro b hb
    have hcase := stageQueryDelta_cases hstaged.delta
    simp only [IndexDb.write] at hb
    generalize db.build = build at hcase hb
    generalize update.delta = d at hcase hb
    cases hcase with
    | noBuild | overflow => simp [DeltaWrite.writeBuild] at hb
    | clearing | nothing => exact ⟨b, hb, rfl⟩
    | append =>
      cases hb
      exact ⟨_, rfl, rfl⟩
  · intro r hr
    have hcase := stageQueryDelta_cases hstaged.delta
    simp only [IndexDb.write] at hr
    generalize db.build = build at hcase
    generalize update.delta = d at hcase hr
    cases hcase with
    | overflow =>
      cases hr
      exact Or.inr ⟨_, rfl, rfl⟩
    | _ => exact Or.inl hr

theorem StagedFrom.writeBuild_none
    (h : StagedFrom env db mutations update) (hbuild : db.build = none) :
    update.delta.writeBuild db.build = none := by
  have hcase := stageQueryDelta_cases h.delta
  rw [hbuild] at hcase ⊢
  generalize update.delta = d at hcase
  cases hcase with
  | noBuild => rfl

/-! ## The steps of commits -/

theorem locks_false (h : CommitsInv env s) (hc : s.commits graph = some c) :
    s.maintenance.locks = false := by
  by_contra hlocks
  have hnone := h.locked (by simpa using hlocks) graph
  rw [hc] at hnone
  simp at hnone

theorem commitsInv_start (h : CommitsInv env s)
    (hlock : s.maintenance.locks = false) (hrecorded : Recorded s.db.source mutations)
    (hgraph : ∀ m ∈ mutations, m.change.1.graph = graph) :
    CommitsInv env (s.setCommit graph (some ⟨mutations, .started⟩)) := by
  refine h.commitStep graph hlock (fun _ _ ho => ho) (fun _ _ => Iff.rfl) (.inl rfl) (fun hb => hb)
    rfl h.records ?_
  rintro c ⟨⟩
  exact ⟨by simp [owns], hgraph, fun _ => hrecorded, by simp [owes],
    by simp [CommitPhase.update], by simp [CommitPhase.failure]⟩

theorem commitsInv_move (h : CommitsInv env s) (hc : s.commits graph = some c)
    {phase : Option CommitPhase}
    (hmove : CommitMove env s.db graph c.mutations s.gate c.phase gate phase) :
    CommitsInv env
      { s.setCommit graph (phase.map fun phase => ⟨c.mutations, phase⟩) with gate := gate } := by
  have hok := h.commits graph c hc
  refine h.commitStep graph (locks_false h hc)
    (fun o ho hgate => hmove.gate_other hok.gate ho hgate) (fun _ _ => Iff.rfl) (.inl rfl)
    (fun hb => hb) rfl h.records fun c' hc' => ?_
  obtain ⟨phase', rfl, rfl⟩ := map_eq_some_iff.mp hc'
  exact hok.move hmove rfl rfl

theorem source_other {source : Finset EncodedQuad}
    (hgraph : ∀ m ∈ mutations, m.change.1.graph = graph) (e : EncodedQuad)
    (he : e.graph ≠ graph) : e ∈ mutate source mutations ↔ e ∈ source := by
  refine mem_mutate_of_notMem fun m hm heq => he ?_
  rw [← heq]
  exact hgraph m hm

variable (h : CommitsInv env s)
include h

/-- A commit writes what it has staged, and gives the gate back. -/
theorem commitsInv_writeStaged {phase : CommitPhase} (hc : s.commits graph = some ⟨mutations, phase⟩)
    (hupdate : phase.update = some update) {source : Finset EncodedQuad} {debts : Finset Nat}
    (hsource : ∀ e, e.graph ≠ graph → (e ∈ source ↔ e ∈ s.db.source)) :
    CommitsInv env
      { s.setCommit graph none with
        db := { s.db.write update with source := source, debts := debts }
        gate := none } := by
  have hok := h.commits graph _ hc
  have hstaged := hok.staged update hupdate
  have howner := hok.gate (owns_of_update hupdate)
  have hrecords := h.records.write hstaged
  refine h.commitStep graph (locks_false h hc) (fun o ho hgate => ?_) hsource (.inr howner)
    hstaged.writeBuild_none hstaged.index.writeHeader ⟨hrecords.build, hrecords.cleanup⟩ nofun
  rw [howner] at hgate
  exact absurd (some.inj hgate).symm ho

theorem commitsInv_writeDebt (hc : s.commits graph = some ⟨mutations, .indebted⟩) :
    CommitsInv env
      { s.setCommit graph (some ⟨mutations, .owing s.debtNext⟩) with
        db := (s.db.writeSource mutations).insertDebt s.debtNext
        debtNext := s.debtNext + 1 } := by
  have hok := h.commits graph _ hc
  refine h.commitStep graph (locks_false h hc) (fun _ _ ho => ho) (source_other hok.graph)
    (.inl rfl) (fun hb => hb) rfl ⟨h.records.build, h.records.cleanup⟩ ?_
  rintro c ⟨⟩
  exact ⟨by simp [owns], hok.graph, by simp [pending],
    fun _ => hok.solvent rfl, by simp [CommitPhase.update], by simp [CommitPhase.failure]⟩

theorem commitsInv_writeFailure {debt : Nat} {previous : Option IndexHeader}
    (hc : s.commits graph = some ⟨mutations, .failStaged debt previous⟩) :
    CommitsInv env { s.setCommit graph none with db := s.db.failDebt debt previous } := by
  have hactive : rebuildActive (s.db.failDebt debt previous).header =
      rebuildActive s.db.header := (h.commits graph _ hc).failing previous rfl
  refine h.commitStep graph (locks_false h hc) (fun _ _ ho => ho) (fun _ _ => Iff.rfl) (.inl rfl)
    (fun hb => hb) hactive ?_ nofun
  exact h.records.of_active hactive (fun b hb => ⟨b, hb, rfl⟩) (fun r hr => .inl hr)

end Craqle
