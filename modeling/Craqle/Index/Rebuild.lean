import Craqle.Index.Commits
import Craqle.Index.Scan

/-! # Rebuilds are exact

From its capture on, a rebuild follows the source by the deltas that commits log: the source is
the captured one changed by all deltas, and the slot that is built stands for the captured one
changed by the deltas up to the replay cursor. At the switch the cursor has reached the last
delta, so the new slot indexes the present source.

A commit that the build record does not survive leaves a rebuild without a record, and then it
can only stop. Crashes lose the memory of a rebuild; its record stays until a recovery.
-/

namespace Craqle

open Function Maintenance IndexSlot IndexDb List Option SlotSpace
open Transition (Reachable anyStep)

/-! ## The logged deltas -/

/-- The source after each delta, from the captured source to the present one. -/
structure Tracks (states : Nat → Finset EncodedQuad) (snapshot source : Finset EncodedQuad)
    (deltas : Nat → Option (List NetQuadTransition)) (b : QueryBuildRecord) : Prop where
  phase : b.phase ≠ .clear
  cursor_lt : b.replayCursor < b.nextDelta
  start : states 0 = snapshot
  now : states (b.nextDelta - 1) = source
  step : ∀ n, n + 1 < b.nextDelta → ∃ transitions, deltas (n + 1) = some transitions ∧
    NetOn (states n) transitions ∧
    states (n + 1) = Toggle.apply (states n) (changesOf transitions)

variable {env : IndexEnv} {s s' : IndexState} {states : Nat → Finset EncodedQuad}
  {snapshot source : Finset EncodedQuad} {deltas : Nat → Option (List NetQuadTransition)}
  {b b' : QueryBuildRecord} {db db' : IndexDb}

theorem tracks_start (source : Finset EncodedQuad) (deltas : Nat → Option (List NetQuadTransition))
    (hphase : b.phase ≠ .clear) (hcursor : b.replayCursor = 0) (hnext : b.nextDelta = 1) :
    Tracks (fun _ => source) source source deltas b where
  phase := hphase
  cursor_lt := by omega
  start := rfl
  now := rfl
  step n hn := by omega

theorem Tracks.congr (h : Tracks states snapshot source deltas b) (hphase : b'.phase ≠ .clear)
    (hcursor : b'.replayCursor < b.nextDelta) (hnext : b'.nextDelta = b.nextDelta) :
    Tracks states snapshot source deltas b' where
  phase := hphase
  cursor_lt := by omega
  start := h.start
  now := by rw [hnext, h.now]
  step n hn := h.step n (by omega)

/-- **A commit appends its delta.** -/
theorem Tracks.append (h : Tracks states snapshot source deltas b)
    {transitions : List NetQuadTransition} (hnet : NetOn source transitions)
    (hphase : b'.phase = b.phase) (hcursor : b'.replayCursor = b.replayCursor)
    (hnext : b'.nextDelta = b.nextDelta + 1) :
    Tracks (Function.update states b.nextDelta (Toggle.apply source (changesOf transitions)))
      snapshot (Toggle.apply source (changesOf transitions))
      (Function.update deltas b.nextDelta (some transitions)) b' where
  phase := by
    rw [hphase]
    exact h.phase
  cursor_lt := by
    have := h.cursor_lt
    omega
  start := by
    have := h.cursor_lt
    rw [update_of_ne (by omega), h.start]
  now := by
    rw [hnext, Nat.add_sub_cancel, update_self]
  step n hn := by
    by_cases hlast : n + 1 = b.nextDelta
    · -- the new delta leads from the source before to the source after
      refine ⟨transitions, ?_, ?_, ?_⟩
      · rw [hlast, update_self]
      · rw [update_of_ne (by omega), show n = b.nextDelta - 1 by omega, h.now]
        exact hnet
      · rw [hlast, update_self, update_of_ne (by omega),
          show n = b.nextDelta - 1 by omega, h.now]
    · obtain ⟨ts, hdelta, hnet', hstate⟩ := h.step n (by omega)
      refine ⟨ts, ?_, ?_, ?_⟩
      · rw [update_of_ne hlast, hdelta]
      · rw [update_of_ne (by omega)]
        exact hnet'
      · rw [update_of_ne hlast, update_of_ne (by omega), hstate]

/-- What a write leaves of the log: the record is gone, or it goes on from where it was. -/
def LogKept (db db' : IndexDb) : Prop :=
  ∀ b', db'.build = some b' → ∃ b, db.build = some b ∧ (b.phase = .clear → b' = b) ∧
    ∀ states snapshot, Tracks states snapshot db.source db.deltas b →
      ∃ states', Tracks states' snapshot db'.source db'.deltas b' ∧
        b'.replayCursor = b.replayCursor ∧
        states' b.replayCursor = states b.replayCursor ∧ b.nextDelta ≤ b'.nextDelta

/-- **The commit of an owner** keeps the log. -/
theorem logKept_write {mutations : List QuadMutation} {update : StagedUpdate}
    (hstaged : StagedFrom env db mutations update) (hrecorded : Recorded db.source mutations) :
    LogKept db ((db.writeSource mutations).write update) := by
  obtain ⟨hnet, hmutate⟩ := netOn_coalescedTransitions hrecorded
  intro b' hb'
  have hcase := stageQueryDelta_cases hstaged.delta
  simp only [write, writeSource] at hb' ⊢
  rw [← hmutate]
  generalize db.build = build at hcase hb' ⊢
  generalize update.delta = d at hcase hb' ⊢
  cases hcase with
  | noBuild | overflow => simp [DeltaWrite.writeBuild] at hb'
  | clearing hphase =>
    cases hb'
    exact ⟨_, rfl, fun _ => rfl, fun _ _ htracks => absurd hphase htracks.phase⟩
  | nothing hphase hnil =>
    cases hb'
    refine ⟨_, rfl, fun _ => rfl, fun states snapshot htracks => ⟨states, ?_, rfl, rfl, le_rfl⟩⟩
    rw [hnil]
    exact htracks
  | append hphase =>
    cases hb'
    refine ⟨_, rfl, fun hclear => absurd hclear hphase, fun states snapshot htracks =>
      ⟨_, htracks.append hnet rfl rfl rfl, rfl, ?_, Nat.le_succ _⟩⟩
    exact update_of_ne (Nat.ne_of_lt htracks.cursor_lt) _ _

theorem logKept_of_none (h : db'.build = none) : LogKept db db' := by
  intro b' hb'
  rw [h] at hb'
  simp at hb'

/-! ## Where a rebuild is -/

/-- The keyspaces that are done are empty, and the one at hand has only keys that were read. -/
structure ClearOk (sp : IndexSpaces) (todo : List SlotSpace) (seen : Option IndexSpaces) : Prop where
  empty : ∀ space, space ∉ todo → sp.EmptyIn space
  keys : ∀ read space rest, seen = some read → todo = space :: rest → sp.KeysIn read space

/-- The scan so far stands for the part of the captured source that does not remain. -/
structure Scanning (db : IndexDb) (r : Rebuild) (remaining : List EncodedQuad) (rows : Nat)
    (next : QueryTermId) : Prop where
  active : rebuildActive db.header = some r.active
  nodup : remaining.Nodup
  scanned : ∃ done, ScannedAs (db.slots r.inactive) next done rows ∧
    (∀ e ∈ remaining, e ∉ done) ∧ done ∪ remaining.toFinset = r.snapshot
  follows : ∀ b, db.build = some b → b.replayCursor = 0 ∧
    ∃ states, Tracks states r.snapshot db.source db.deltas b

structure Covered (db : IndexDb) (r : Rebuild) (candidate : IndexHeader) : Prop where
  active : rebuildActive db.header = some r.active
  slot : candidate.activeSlot = r.inactive.encode
  follows : ∀ b, db.build = some b → ∃ states, Tracks states r.snapshot db.source db.deltas b ∧
    Indexes (db.slots r.inactive) candidate.nextQueryId (states b.replayCursor)

/-- What holds of the database where maintenance is. -/
def RebuildInv (db : IndexDb) : Maintenance → Prop
  | .clearing slot todo seen after =>
    (∃ active, rebuildActive db.header = some active ∧ slot = active.other) ∧
      ClearOk (db.slots slot) todo seen ∧
      ∀ active, after = .rebuild active → slot = active.other ∧
        ∀ b, db.build = some b → b.phase = .clear ∧ b.replayCursor = 0 ∧ b.nextDelta = 1
  | .capturing active _ build =>
    rebuildActive db.header = some active ∧
      (∀ space, (db.slots active.other).EmptyIn space) ∧ db.build = some build ∧
      build.phase ≠ .clear ∧ build.replayCursor = 0 ∧ build.nextDelta = 1
  | .scanning r remaining rows next | .cursor r remaining rows next _ _ =>
    Scanning db r remaining rows next
  | .covered r candidate | .verified r candidate => Covered db r candidate
  | .replaying r candidate _ target _ =>
    Covered db r candidate ∧ ∀ b, db.build = some b → target < b.nextDelta
  | .verifying r candidate build target | .switching r candidate build target =>
    Covered db r candidate ∧ db.build = some build ∧ target + 1 = build.nextDelta
  | .idle | .recovering | .forgetting _ | .cleanup => True

/-- **The invariant** of commits and maintenance. -/
structure IndexInv (env : IndexEnv) (s : IndexState) : Prop where
  commits : CommitsInv env s
  rebuild : RebuildInv s.db s.maintenance

theorem IndexInv.at {m : Maintenance} (h : IndexInv env s) (hphase : s.maintenance = m) :
    RebuildInv s.db m :=
  hphase ▸ h.rebuild

/-! ## Commits do not disturb a rebuild -/

variable {next : QueryTermId} {r : Rebuild} {remaining : List EncodedQuad} {rows : Nat}

theorem Scanning.commit (h : Scanning db r remaining rows next)
    (hactive : rebuildActive db'.header = rebuildActive db.header)
    (hslots : db'.slots r.inactive = db.slots r.inactive) (hlog : LogKept db db') :
    Scanning db' r remaining rows next where
  active := hactive.trans h.active
  nodup := h.nodup
  scanned := by
    rw [hslots]
    exact h.scanned
  follows b' hb' := by
    obtain ⟨b, hb, _, htracks⟩ := hlog b' hb'
    obtain ⟨hzero, states, hstates⟩ := h.follows b hb
    obtain ⟨states', hstates', hcursor, _⟩ := htracks states _ hstates
    exact ⟨hcursor.trans hzero, states', hstates'⟩

variable {candidate : IndexHeader}

theorem Covered.commit (h : Covered db r candidate)
    (hactive : rebuildActive db'.header = rebuildActive db.header)
    (hslots : db'.slots r.inactive = db.slots r.inactive) (hlog : LogKept db db') :
    Covered db' r candidate where
  active := hactive.trans h.active
  slot := h.slot
  follows b' hb' := by
    obtain ⟨b, hb, _, htracks⟩ := hlog b' hb'
    obtain ⟨states, hstates, hindex⟩ := h.follows b hb
    obtain ⟨states', hstates', hcursor, hsame, _⟩ := htracks states _ hstates
    refine ⟨states', hstates', ?_⟩
    rw [hslots, hcursor, hsame]
    exact hindex

variable {m : Maintenance}

/-- What commits do, while maintenance does not own the gate, keeps its invariant. -/
theorem RebuildInv.commit (h : RebuildInv db m) (howns : m.owns = false)
    (hactive : rebuildActive db'.header = rebuildActive db.header)
    (hslots : ∀ active, rebuildActive db.header = some active →
      db'.slots active.other = db.slots active.other)
    (hlog : LogKept db db') : RebuildInv db' m := by
  cases m with
  | idle | recovering | forgetting cleanup | cleanup => trivial
  | clearing slot todo seen after =>
    obtain ⟨⟨active, hserving, rfl⟩, hclear, hafter⟩ := h
    refine ⟨⟨active, hactive.trans hserving, rfl⟩, ?_, fun active' hafter' => ?_⟩
    · rw [hslots active hserving]
      exact hclear
    · obtain ⟨hslot, hbuild⟩ := hafter active' hafter'
      refine ⟨hslot, fun b' hb' => ?_⟩
      obtain ⟨b, hb, hkept, _⟩ := hlog b' hb'
      rw [hkept (hbuild b hb).1]
      exact hbuild b hb
  | capturing active previous build | verifying r candidate build target
  | switching r candidate build target => simp [owns] at howns
  | scanning r remaining rows next | cursor r remaining rows next cursor owned =>
    exact Scanning.commit h hactive (hslots _ h.active) hlog
  | covered r candidate | verified r candidate =>
    exact Covered.commit h hactive (hslots _ h.active) hlog
  | replaying r candidate build target owned =>
    obtain ⟨hcovered, htarget⟩ := h
    refine ⟨hcovered.commit hactive (hslots _ hcovered.active) hlog, fun b' hb' => ?_⟩
    obtain ⟨b, hb, _, htracks⟩ := hlog b' hb'
    obtain ⟨states, hstates, _⟩ := hcovered.follows b hb
    obtain ⟨_, _, _, _, hnext⟩ := htracks states _ hstates
    exact lt_of_lt_of_le (htarget b hb) hnext

variable {graph : TermId}

theorem not_owns_of_commit {c : Commit} (h : CommitsInv env s)
    (hc : s.commits graph = some c) (howns : c.phase.owns = true) :
    s.maintenance.owns = false := by
  by_contra hmaintenance
  have hgate := h.maintenance (by simpa using hmaintenance)
  rw [(h.commits graph c hc).gate howns] at hgate
  simp at hgate

/-- A commit without the gate is there only without a build record, and then maintenance does
not own the gate in a phase that needs one. -/
theorem rebuildInv_of_none (h : RebuildInv db m) (hbuild : db.build = none)
    (hactive : rebuildActive db'.header = rebuildActive db.header)
    (hslots : ∀ active, rebuildActive db.header = some active →
      db'.slots active.other = db.slots active.other)
    (hbuild' : db'.build = none) : RebuildInv db' m := by
  have hlog : LogKept db db' := logKept_of_none hbuild'
  cases m with
  | capturing active previous build =>
    have := h.2.2.1
    rw [hbuild] at this
    simp at this
  | verifying r candidate build target | switching r candidate build target =>
    have := h.2.1
    rw [hbuild] at this
    simp at this
  | cursor r remaining rows next cursor owned =>
    exact RebuildInv.commit (m := .cursor r remaining rows next cursor false) h rfl hactive
      hslots hlog
  | replaying r candidate build target owned =>
    exact RebuildInv.commit (m := .replaying r candidate build target false) h rfl hactive
      hslots hlog
  | _ => exact RebuildInv.commit h rfl hactive hslots hlog

/-- **The steps of commits keep the invariant.** -/
theorem indexInv_commit (h : IndexInv env s)
    (hstep : IndexStep env s (.commit graph) s') : IndexInv env s' := by
  cases hstep with
  | start hopened hlock hguard hrecorded hgraph =>
    exact ⟨commitsInv_start h.commits hlock hrecorded hgraph, h.rebuild⟩
  | move hcommit hmove => exact ⟨commitsInv_move h.commits hcommit hmove, h.rebuild⟩
  | write hcommit =>
    have hok := h.commits.commits _ _ hcommit
    have hstaged := hok.staged _ rfl
    refine ⟨commitsInv_writeStaged h.commits hcommit rfl (source_other hok.graph), ?_⟩
    exact h.rebuild.commit (not_owns_of_commit h.commits hcommit rfl)
      hstaged.index.writeHeader (fun _ hactive => NamesSlot.writeSlots (hactive ▸ hstaged.index) _)
      (logKept_write hstaged (hok.recorded rfl))
  | writeDebt hcommit =>
    have hbuild := (h.commits.commits _ _ hcommit).solvent rfl
    exact ⟨commitsInv_writeDebt h.commits hcommit,
      rebuildInv_of_none h.rebuild hbuild rfl (fun _ _ => rfl) hbuild⟩
  | writeRepair hcommit =>
    have hok := h.commits.commits _ _ hcommit
    have hstaged := hok.staged _ rfl
    have hbuild := hok.solvent rfl
    exact ⟨commitsInv_writeStaged h.commits hcommit rfl fun _ _ => Iff.rfl,
      rebuildInv_of_none h.rebuild hbuild hstaged.index.writeHeader
      (fun _ hactive => NamesSlot.writeSlots (hactive ▸ hstaged.index) _)
      (hstaged.writeBuild_none hbuild)⟩

theorem indexInv_failDebt (h : IndexInv env s)
    (hstep : IndexStep env s (.failDebt graph) s') : IndexInv env s' := by
  cases hstep with
  | writeFailure hcommit =>
    have hok := h.commits.commits _ _ hcommit
    have hbuild := hok.solvent rfl
    exact ⟨commitsInv_writeFailure h.commits hcommit, rebuildInv_of_none h.rebuild hbuild
      (hok.failing _ rfl) (fun _ _ => rfl) hbuild⟩

/-! ## Maintenance -/

/-- Maintenance leaves the source, the debts, the header and the slot that it names alone, and
keeps the invariant. -/
structure Maintained (env : IndexEnv) (s s' : IndexState) : Prop where
  source : s'.db.source = s.db.source
  debts : s'.db.debts = s.db.debts
  header : s'.db.header = s.db.header
  slots : ∀ active, rebuildActive s.db.header = some active →
    s'.db.slots active = s.db.slots active
  commits : s'.commits = s.commits
  inv : IndexInv env s'

section

variable (h : CommitsInv env s)
  (hcommits : s'.commits = s.commits)
  (hheader : s'.db.header = s.db.header)
include h hcommits hheader

/-- The commits' part of a maintenance step: owners of the gate are left alone, and a build
record appears only when no commit is in flight. -/
theorem CommitsInv.maintain (hsource : s'.db.source = s.db.source)
    (hgate : ∀ graph, s.gate = some (.commit graph) →
      s'.gate = some (.commit graph) ∧ s'.db.build = s.db.build)
    (hsolvent : s.Quiet ∨ (s.db.build = none → s'.db.build = none))
    (hmaintenance : s'.maintenance.owns = true → s'.gate = some .maintenance)
    (hlocked : s'.maintenance.locks = true → s.Quiet)
    (hrecords : RecordsOk s'.db) : CommitsInv env s' where
  commits graph c hc := by
    rw [hcommits] at hc
    have hok := h.commits graph c hc
    refine hok.frame (fun ho => (hgate graph ho).1) ?_ ?_ ?_ ?_
    · intro e _
      rw [hsource]
    · intro howns
      exact (hgate graph (hok.gate howns)).2
    · intro _ hb
      rcases hsolvent with hquiet | hsolvent
      · rw [hquiet graph] at hc
        simp at hc
      · exact hsolvent hb
    · intro _
      rw [hheader]
  maintenance := hmaintenance
  locked hlocks := by
    intro graph
    rw [hcommits]
    exact hlocked hlocks graph
  records := hrecords

/-- A step that leaves the gate and the record alone. -/
theorem CommitsInv.aside (hsource : s'.db.source = s.db.source)
    (hgate : s'.gate = s.gate) (hbuild : s'.db.build = s.db.build)
    (hcleanup : s'.db.cleanup = s.db.cleanup ∨ s'.db.cleanup = none)
    (howns : s'.maintenance.owns = false) (hlocks : s'.maintenance.locks = false) :
    CommitsInv env s' := by
  refine h.maintain hcommits hheader hsource (fun g hg => ⟨hgate.trans hg, hbuild⟩)
    (Or.inr fun hb => hbuild.trans hb) (by simp [howns]) (by simp [hlocks]) ?_
  refine h.records.of_active (by rw [hheader]) (fun b hb => ⟨b, hbuild ▸ hb, rfl⟩) ?_
  intro r hr
  rcases hcleanup with hsame | hnone
  · exact Or.inl (hsame ▸ hr)
  · rw [hnone] at hr
    simp at hr

end

/-- A step that takes the free gate. -/
theorem CommitsInv.acquire (h : CommitsInv env s) (hfree : s.gate = none)
    (hcommits : s'.commits = s.commits) (hdb : s'.db = s.db)
    (hgate : s'.gate = some .maintenance) (hlocks : s'.maintenance.locks = false) :
    CommitsInv env s' := by
  refine h.maintain hcommits (by rw [hdb]) (by rw [hdb]) (fun g hg => ?_)
    (Or.inr fun hb => by rwa [hdb]) (fun _ => hgate) (by simp [hlocks]) (by rw [hdb]; exact h.records)
  rw [hfree] at hg
  simp at hg

/-- A step of the owner of the gate, which may write the record. -/
theorem CommitsInv.owner (h : CommitsInv env s) (howner : s.maintenance.owns = true)
    (hcommits : s'.commits = s.commits) (hheader : s'.db.header = s.db.header)
    (hsource : s'.db.source = s.db.source) (hcleanup : s'.db.cleanup = s.db.cleanup)
    (hbuild : ∀ b', s'.db.build = some b' → ∃ b, s.db.build = some b ∧ b.slot = b'.slot)
    (howns : s'.maintenance.owns = true → s'.gate = some .maintenance)
    (hlocks : s'.maintenance.locks = false) : CommitsInv env s' := by
  refine h.maintain hcommits hheader hsource (fun g hg => ?_) (Or.inr fun hb => ?_) howns
    (by simp [hlocks]) ?_
  · rw [h.maintenance howner] at hg
    simp at hg
  · by_contra hsome
    obtain ⟨b', hb'⟩ := ne_none_iff_exists'.mp hsome
    obtain ⟨b, hb₀, _⟩ := hbuild b' hb'
    rw [hb] at hb₀
    simp at hb₀
  · refine h.records.of_active (by rw [hheader]) hbuild fun r hr => Or.inl ?_
    rwa [hcleanup] at hr

/-! ### Clearing -/

theorem SlotSpace.mem_all (space : SlotSpace) : space ∈ all := by
  cases space with
  | order o => exact mem_append_left _ (mem_map_of_mem (IndexKeyOrder.mem_all o))
  | termToQuery | queryToTerm | metadata => decide

theorem clearOk_start (sp : IndexSpaces) : ClearOk sp all none where
  empty space hspace := absurd (mem_all space) hspace
  keys := by simp

variable {sp : IndexSpaces} {todo : List SlotSpace}

theorem ClearOk.read (h : ClearOk sp todo none) :
    ClearOk sp todo (some sp) where
  empty := h.empty
  keys := by
    rintro read space rest ⟨⟩ _
    exact keysIn_self space

variable {space : SlotSpace}

theorem ClearOk.page {page read : IndexSpaces} (h : ClearOk sp (space :: todo) (some read)) :
    ClearOk (sp.clearSpace page space) (space :: todo) (some read) where
  empty other hother := emptyIn_clearSpace space (h.empty other hother)
  keys := by
    rintro read' space' rest ⟨⟩ ⟨⟩
    exact keysIn_clearSpace (h.keys _ _ _ rfl rfl)

theorem ClearOk.done {read : IndexSpaces} (h : ClearOk sp (space :: todo) (some read)) :
    ClearOk (sp.clearSpace read space) todo none where
  empty other hother := by
    by_cases heq : other = space
    · subst heq
      exact emptyIn_clearSpace_self (h.keys _ _ _ rfl rfl)
    · exact emptyIn_clearSpace space (h.empty other (by simp [heq, hother]))
  keys := by simp

variable {active slot : IndexSlot}

/-- Writing to the slot that is not named leaves the named one alone. -/
theorem writeSlot_active
    (hslot : ∃ active', rebuildActive db.header = some active' ∧ slot = active'.other)
    (hactive : rebuildActive db.header = some active) :
    (db.writeSlot slot sp).slots active = db.slots active := by
  obtain ⟨active', hactive', rfl⟩ := hslot
  cases hactive.symm.trans hactive'
  exact update_of_ne (other_ne active).symm _ _

theorem writeSlot_self (db : IndexDb) (slot : IndexSlot) (sp : IndexSpaces) :
    (db.writeSlot slot sp).slots slot = sp :=
  update_self _ _ _

/-! ### Replay -/

variable {build' : QueryBuildRecord} {candidate' : IndexHeader} {target : Nat}

/-- **A replayed delta** moves the built slot and the cursor on together. -/
theorem Covered.replay {current : QueryBuildRecord} (h : Covered db r candidate)
    (hbuild : db.build = some current) (htarget : target < current.nextDelta)
    (hreplayed : Replayed db current candidate target db' build' candidate') :
    Covered db' r candidate' ∧ db'.build = some build' ∧
      build'.nextDelta = current.nextDelta ∧ build'.slot = current.slot := by
  obtain ⟨states, htracks, hindex⟩ := h.follows current hbuild
  cases hreplayed with
  | done => exact ⟨h, hbuild, rfl, rfl⟩
  | delta hlt hdelta hplan =>
    obtain ⟨transitions, hdelta', hnet, hstate⟩ := htracks.step current.replayCursor (by omega)
    cases hdelta.symm.trans hdelta'
    have hslot : decode candidate.activeSlot = some r.inactive := by
      rw [h.slot, decode_encode]
    obtain ⟨hplanSlot, hactiveSlot, hindex'⟩ := replay_indexes hslot hindex hnet hplan
    refine ⟨⟨h.active, hactiveSlot.trans h.slot, fun b hb => ?_⟩, rfl, rfl, rfl⟩
    cases hb
    refine ⟨states, htracks.congr (by simp) (by simp only; omega) rfl, ?_⟩
    show Indexes ((db.writeSlot _ _).slots r.inactive) _ (states (current.replayCursor + 1))
    rw [hplanSlot, writeSlot_self, hstate]
    exact hindex'

/-- What a replay leaves alone. -/
theorem Replayed.keeps {current : QueryBuildRecord}
    (hreplayed : Replayed db current candidate target db' build' candidate') :
    db'.source = db.source ∧ db'.debts = db.debts ∧ db'.header = db.header ∧
      db'.cleanup = db.cleanup ∧ ∀ slot, decode candidate.activeSlot ≠ some slot →
        db'.slots slot = db.slots slot := by
  cases hreplayed with
  | done => exact ⟨rfl, rfl, rfl, rfl, fun _ _ => rfl⟩
  | delta hlt hdelta hplan =>
    refine ⟨rfl, rfl, rfl, rfl, fun slot hslot => ?_⟩
    refine update_of_ne (fun heq => hslot ?_) _ _
    rw [heq]
    exact (planIndexUpdate_slot hplan).1

/-! ### Steps of a rebuild -/

theorem maintained_create (h : IndexInv env s) (hquiet : s.Quiet)
    (hgate : s.gate = none) (hactive : rebuildActive s.db.header = some active) :
    Maintained env s
      { s.setBuild (some (createdBuild env s.db active.other)) with
        maintenance := .clearing active.other all none (.rebuild active) } := by
  refine ⟨rfl, rfl, rfl, fun _ _ => rfl, rfl, ?_, ?_⟩
  · refine h.commits.maintain rfl rfl rfl (fun g hg => ?_) (Or.inl hquiet)
      (by simp [owns]) (by simp [locks]) ⟨?_, h.commits.records.cleanup⟩
    · rw [hgate] at hg
      simp at hg
    · intro b hb
      cases hb
      exact ⟨active, hactive, rfl⟩
  · refine ⟨⟨active, hactive, rfl⟩, clearOk_start _, ?_⟩
    rintro active' ⟨⟩
    refine ⟨rfl, fun b hb => ?_⟩
    cases hb
    exact ⟨rfl, rfl, rfl⟩

variable {build : QueryBuildRecord}

section

variable (h : IndexInv env s)
include h

theorem maintained_capture {sequence : Nat}
    (hphase : s.maintenance = .clearing slot [] none (.rebuild active))
    (hquiet : s.Quiet) (hgate : s.gate = none) (hbuild : s.db.build = some build)
    (hactive : decode (s.db.header.previous.getD .emptyReady).activeSlot = some active) :
    Maintained env s
      { s.setBuild (some (capturedBuild env s.db sequence build)) with
        gate := some .maintenance
        maintenance := .capturing active (s.db.header.previous.getD .emptyReady)
          (capturedBuild env s.db sequence build) } := by
  obtain ⟨_, hclear, hafter⟩ := h.at hphase
  obtain ⟨rfl, hrecord⟩ := hafter active rfl
  obtain ⟨_, hcursor, hnext⟩ := hrecord build hbuild
  refine ⟨rfl, rfl, rfl, fun _ _ => rfl, rfl, ?_, ?_⟩
  · refine h.commits.maintain rfl rfl rfl (fun g hg => ?_) (Or.inl hquiet) (fun _ => rfl)
      (fun _ => hquiet) ?_
    · rw [hgate] at hg
      simp at hg
    · refine h.commits.records.of_active rfl (fun b hb => ?_) (fun r hr => Or.inl hr)
      cases hb
      exact ⟨build, hbuild, rfl⟩
  · exact ⟨(rebuildActive_previous s.db.header).symm.trans hactive,
      fun space => hclear.empty space (by simp), rfl, by simp [capturedBuild], hcursor, hnext⟩

theorem maintained_captureSource {previous : IndexHeader} {sequence : Nat}
    {rows : List EncodedQuad} (hphase : s.maintenance = .capturing active previous build)
    (hnodup : rows.Nodup) (hrows : rows.toFinset = s.db.source) :
    Maintained env s
      { s.setBuild (some (build.withSource previous sequence)) with
        gate := none
        maintenance := .scanning ⟨active, s.db.source, build.withSource previous sequence⟩
          rows 0 0 } := by
  obtain ⟨hactive, hempty, hbuild, hclear, hcursor, hnext⟩ := h.at hphase
  refine ⟨rfl, rfl, rfl, fun _ _ => rfl, rfl, ?_, ?_⟩
  · refine h.commits.owner (by rw [hphase]; rfl) rfl rfl rfl rfl (fun b hb => ?_)
      (by simp [owns]) rfl
    cases hb
    exact ⟨build, hbuild, rfl⟩
  · refine ⟨hactive, hnodup, ⟨∅, scannedAs_of_empty hempty, by simp, by simpa using hrows⟩, ?_⟩
    intro b hb
    cases hb
    exact ⟨hcursor, _, tracks_start s.db.source s.db.deltas hclear hcursor hnext⟩

theorem maintained_scanChunk
    {next' : QueryTermId} {plan : IndexUpdatePlan}
    (hphase : s.maintenance = .scanning r remaining rows next)
    (hchunk : buildIndexChunk r.inactive (s.db.slots r.inactive) (remaining.take qvBuildRows)
      next = some (plan, next')) :
    Maintained env s
      { s with
        db := s.db.writeSlot plan.slot ((s.db.slots plan.slot).stagePlan plan)
        maintenance := .cursor r (remaining.drop qvBuildRows)
          (rows + (remaining.take qvBuildRows).length) next'
          (remaining.take qvBuildRows).getLast? false } := by
  have hscan := h.at hphase
  obtain ⟨done, hscanned, hnew, hunion⟩ := hscan.scanned
  have hsplit := take_append_drop qvBuildRows remaining
  have hnodup : (remaining.take qvBuildRows ++ remaining.drop qvBuildRows).Nodup :=
    hsplit.symm ▸ hscan.nodup
  rw [nodup_append] at hnodup
  obtain ⟨hplanSlot, hscanned'⟩ := buildIndexChunk_spec hscanned hnodup.1
    (fun e he => hnew e (mem_of_mem_take he)) hchunk
  refine ⟨rfl, rfl, rfl, fun active hactive => ?_, rfl, ?_, ?_⟩
  · exact writeSlot_active ⟨r.active, hscan.active, hplanSlot⟩ hactive
  · exact h.commits.aside rfl rfl rfl rfl rfl (Or.inl rfl) rfl rfl
  · refine ⟨hscan.active, hnodup.2.1,
      ⟨done ∪ (remaining.take qvBuildRows).toFinset, ?_, ?_, ?_⟩, hscan.follows⟩
    · show ScannedAs ((s.db.writeSlot _ _).slots r.inactive) _ _ _
      rw [hplanSlot, writeSlot_self]
      exact hscanned'
    · -- what remains is neither done before nor in the chunk
      intro e he hmem
      rcases Finset.mem_union.mp hmem with hold | hchunk
      · exact hnew e (mem_of_mem_drop he) hold
      · exact hnodup.2.2 e (mem_toFinset.mp hchunk) e he rfl
    · rw [Finset.union_assoc, ← toFinset_append, hsplit, hunion]

theorem maintained_writeCursor {cursor : Option EncodedQuad}
    (hphase : s.maintenance = .cursor r remaining rows next cursor true)
    (hbuild : s.db.build = some build) :
    Maintained env s
      { s.setBuild (some { build with scanCursor := cursor }) with
        gate := none
        maintenance := .scanning r remaining rows next } := by
  have hscan := h.at hphase
  refine ⟨rfl, rfl, rfl, fun _ _ => rfl, rfl, ?_, ?_⟩
  · refine h.commits.owner (by rw [hphase]; rfl) rfl rfl rfl rfl (fun b hb => ?_)
      (by simp [owns]) rfl
    cases hb
    exact ⟨build, hbuild, rfl⟩
  · refine ⟨hscan.active, hscan.nodup, hscan.scanned, fun b hb => ?_⟩
    cases hb
    obtain ⟨hzero, states, htracks⟩ := hscan.follows build hbuild
    exact ⟨hzero, states, htracks.congr htracks.phase htracks.cursor_lt rfl⟩

theorem maintained_cover {generation : Nat} (hphase : s.maintenance = .scanning r [] rows next) :
    Maintained env s
      { s with
        db := s.db.writeSlot r.inactive ((s.db.slots r.inactive).coverage rows)
        maintenance := .covered r (candidateHeader r.inactive r.build rows generation next) } := by
  have hscan := h.at hphase
  obtain ⟨done, hscanned, _, hunion⟩ := hscan.scanned
  obtain rfl : done = r.snapshot := by simpa using hunion
  refine ⟨rfl, rfl, rfl, fun active hactive => ?_, rfl, ?_, ?_⟩
  · exact writeSlot_active ⟨r.active, hscan.active, rfl⟩ hactive
  · exact h.commits.aside rfl rfl rfl rfl rfl (Or.inl rfl) rfl rfl
  · refine ⟨hscan.active, rfl, fun b hb => ?_⟩
    obtain ⟨hzero, states, htracks⟩ := hscan.follows b hb
    refine ⟨states, htracks, ?_⟩
    show Indexes ((s.db.writeSlot _ _).slots r.inactive) next _
    rw [writeSlot_self, hzero, htracks.start]
    exact indexes_coverage hscanned

theorem maintained_replay {db' : IndexDb}
    (howner : s.maintenance.owns = true) (hcovered : Covered s.db r candidate)
    (htarget : ∀ b, s.db.build = some b → target < b.nextDelta)
    (hreplay : replayQueryDelta s.db build candidate target = some (db', build', candidate'))
    {gate : Option GateOwner}
    (howns : m.owns = true → gate = some .maintenance) (hlocks : m.locks = false)
    (hinv : ∀ current, s.db.build = some current → Covered db' r candidate' →
      db'.build = some build' → build'.nextDelta = current.nextDelta → RebuildInv db' m) :
    Maintained env s { s with db := db', gate := gate, maintenance := m } := by
  obtain ⟨current, hcurrent, hreplayed⟩ := replayQueryDelta_cases hreplay
  obtain ⟨hsource, hdebts, hheader, hcleanup, hslots⟩ := hreplayed.keeps
  obtain ⟨hcovered', hbuild', hnext, hslot⟩ :=
    hcovered.replay hcurrent (htarget current hcurrent) hreplayed
  refine ⟨hsource, hdebts, hheader, fun active hactive => hslots active ?_, rfl, ?_,
    hinv current hcurrent hcovered' hbuild' hnext⟩
  · rw [hcovered.slot, decode_encode]
    cases hactive.symm.trans hcovered.active
    exact fun heq => other_ne r.active (some.inj heq)
  · refine h.commits.owner howner rfl hheader hsource hcleanup (fun b hb => ?_) howns hlocks
    cases hbuild'.symm.trans hb
    exact ⟨current, hcurrent, hslot.symm⟩

/-- A step of maintenance that writes nothing. -/
theorem maintained_aside (howns : m.owns = false)
    (hlocks : m.locks = false) (hinv : RebuildInv s.db m) :
    Maintained env s { s with maintenance := m } :=
  ⟨rfl, rfl, rfl, fun _ _ => rfl, rfl,
    h.commits.aside rfl rfl rfl rfl rfl (Or.inl rfl) howns hlocks, hinv⟩

/-- **The steps of a rebuild.** -/
theorem rebuildStep_maintained (hstep : RebuildStep env s s') :
    Maintained env s s' := by
  cases hstep with
  | create hidle hopened hquiet hgate hdebts hbuild hactive =>
    exact maintained_create h hquiet hgate hactive
  | capture hphase hquiet hgate hbuild hslot hclear hdebts hactive =>
    exact maintained_capture h hphase hquiet hgate hbuild hactive
  | captureSource hphase hnodup hrows => exact maintained_captureSource h hphase hnodup hrows
  | scanChunk hphase hmore hchunk => exact maintained_scanChunk h hphase hchunk
  | acquireCursor hphase hgate | acquireReplay hphase hmore hgate =>
    have hrebuild := h.at hphase
    exact ⟨rfl, rfl, rfl, fun _ _ => rfl, rfl, h.commits.acquire hgate rfl rfl rfl rfl, hrebuild⟩
  | writeCursor hphase hbuild => exact maintained_writeCursor h hphase hbuild
  | cover hphase => exact maintained_cover h hphase
  | readTarget hphase hbuild =>
    have hcovered : Covered s.db _ _ := h.at hphase
    refine maintained_aside h rfl rfl ⟨hcovered, fun b hb => ?_⟩
    obtain ⟨_, htracks, _⟩ := hcovered.follows b hb
    cases hbuild.symm.trans hb
    have := htracks.cursor_lt
    omega
  | replay hphase hreplay =>
    obtain ⟨hcovered, htarget⟩ := h.at hphase
    refine maintained_replay h (by rw [hphase]; rfl) hcovered htarget hreplay
      (by simp [owns]) rfl fun current hcurrent hcovered' hbuild' hnext =>
        ⟨hcovered', fun b hb => ?_⟩
    cases hbuild'.symm.trans hb
    rw [hnext]
    exact htarget current hcurrent
  | acquireVerify hphase hdone hgate hbuild =>
    obtain ⟨hcovered, _⟩ := h.at hphase
    refine ⟨rfl, rfl, rfl, fun _ _ => rfl, rfl, h.commits.acquire hgate rfl rfl rfl rfl,
      hcovered, hbuild, ?_⟩
    obtain ⟨_, htracks, _⟩ := hcovered.follows _ hbuild
    have := htracks.cursor_lt
    omega
  | verifyReplay hphase hmore hreplay | switchReplay hphase hmore hreplay =>
    obtain ⟨hcovered, hbuild, htarget⟩ := h.at hphase
    refine maintained_replay h (by rw [hphase]; rfl) hcovered (fun b hb => ?_) hreplay
      (fun _ => h.commits.maintenance (by rw [hphase]; rfl)) rfl
      fun current hcurrent hcovered' hbuild' hnext => ⟨hcovered', hbuild', ?_⟩
    · cases hbuild.symm.trans hb
      omega
    · cases hbuild.symm.trans hcurrent
      omega
  | verify hphase hdone =>
    obtain ⟨hcovered, hbuild, _⟩ := h.at hphase
    refine ⟨rfl, rfl, rfl, fun _ _ => rfl, rfl, ?_, hcovered.active, hcovered.slot, ?_⟩
    · refine h.commits.owner (by rw [hphase]; rfl) rfl rfl rfl rfl (fun b hb => ?_)
        (by simp [owns]) rfl
      cases hb
      exact ⟨_, hbuild, rfl⟩
    · intro b hb
      cases hb
      obtain ⟨states, htracks, hindex⟩ := hcovered.follows _ hbuild
      exact ⟨states, htracks.congr (by simp) htracks.cursor_lt rfl, hindex⟩
  | acquireSwitch hphase hgate hbuild =>
    have hcovered : Covered s.db _ _ := h.at hphase
    refine ⟨rfl, rfl, rfl, fun _ _ => rfl, rfl, h.commits.acquire hgate rfl rfl rfl rfl,
      hcovered, hbuild, ?_⟩
    obtain ⟨_, htracks, _⟩ := hcovered.follows _ hbuild
    have := htracks.cursor_lt
    omega

end

/-! ### Steps of a recovery -/

theorem recorded_slot {n : Nat} (hslot : decode n = some slot)
    (hrecord : ∃ active, rebuildActive db.header = some active ∧ n = active.other.encode) :
    ∃ active, rebuildActive db.header = some active ∧ slot = active.other := by
  obtain ⟨active, hactive, rfl⟩ := hrecord
  rw [decode_encode] at hslot
  exact ⟨active, hactive, (some.inj hslot).symm⟩

theorem maintained_clear {todo' : List SlotSpace}
    {after : AfterClear} {seen seen' : Option IndexSpaces} {page : IndexSpaces}
    (h : IndexInv env s) (hphase : s.maintenance = .clearing slot (space :: todo) seen after)
    (hclear : ClearOk (s.db.slots slot) (space :: todo) seen →
      ClearOk ((s.db.slots slot).clearSpace page space) todo' seen') :
    Maintained env s
      { s with
        db := s.db.writeSlot slot ((s.db.slots slot).clearSpace page space)
        maintenance := .clearing slot todo' seen' after } := by
  obtain ⟨hslot, hok, hafter⟩ := h.at hphase
  refine ⟨rfl, rfl, rfl, fun active hactive => writeSlot_active hslot hactive, rfl,
    h.commits.aside rfl rfl rfl rfl rfl (Or.inl rfl) rfl rfl, hslot, ?_, hafter⟩
  rw [writeSlot_self]
  exact hclear hok

/-- **The steps of a recovery**, and the end of any task. -/
theorem recoverStep_maintained (h : IndexInv env s) (hstep : RecoverStep s s') :
    Maintained env s s' := by
  cases hstep with
  | clearRead hphase =>
    obtain ⟨hslot, hclear, hafter⟩ := h.at hphase
    exact maintained_aside h rfl rfl ⟨hslot, hclear.read, hafter⟩
  | clearPage hphase hpage => exact maintained_clear h hphase ClearOk.page
  | clearSpace hphase => exact maintained_clear h hphase ClearOk.done
  | start hidle | noBuild hphase hbuild | forgotten hphase hnone | noCleanup hphase hcleanup
  | cleaned hphase => exact maintained_aside h rfl rfl trivial
  | retire hphase hbuild hslot hactive =>
    exact maintained_aside h rfl rfl
      ⟨recorded_slot hslot (h.commits.records.build _ hbuild), clearOk_start _, by simp⟩
  | retired hphase hquiet hgate hbuild hslot hsequence hdigest =>
    refine ⟨rfl, rfl, rfl, fun _ _ => rfl, rfl, ?_, trivial⟩
    refine h.commits.maintain rfl rfl rfl (fun g hg => ?_) (Or.inl hquiet)
      (by simp [owns]) (by simp [locks])
      ⟨by simp [IndexState.setBuild], h.commits.records.cleanup⟩
    rw [hgate] at hg
    simp at hg
  | forgetPage hphase =>
    refine ⟨rfl, rfl, rfl, fun _ _ => rfl, rfl, ?_, ?_⟩
    · exact h.commits.aside rfl rfl rfl rfl rfl (Or.inl rfl) (by rw [hphase]; rfl)
        (by rw [hphase]; rfl)
    · show RebuildInv _ s.maintenance
      rw [hphase]
      trivial
  | clean hphase hcleanup hslot hactive =>
    exact maintained_aside h rfl rfl
      ⟨recorded_slot hslot (h.commits.records.cleanup _ hcleanup), clearOk_start _, by simp⟩
  | cleanedUp hphase hnone =>
    exact ⟨rfl, rfl, rfl, fun _ _ => rfl, rfl,
      h.commits.aside rfl rfl rfl rfl rfl (Or.inr rfl) rfl rfl, trivial⟩
  | stop =>
    refine ⟨rfl, rfl, rfl, fun _ _ => rfl, rfl, ?_, trivial⟩
    refine h.commits.maintain rfl rfl rfl (fun g hg => ⟨?_, rfl⟩) (Or.inr fun hb => hb)
      (by simp [owns]) (by simp [locks]) h.commits.records
    simp [hg]

theorem maintain_maintained (h : IndexInv env s) (hstep : IndexStep env s .maintain s') :
    Maintained env s s' := by
  cases hstep with
  | rebuild hstep => exact rebuildStep_maintained h hstep
  | recover hstep => exact recoverStep_maintained h hstep

/-! ### The switch -/

/-- **The switch**: the built slot indexes the present source. -/
theorem switch_indexes (h : IndexInv env s)
    (hphase : s.maintenance = .switching r candidate build target)
    (hcoverage : finalCoverage env s.db build candidate r.active target = true) :
    rebuildActive s.db.header = some r.active ∧ candidate.activeSlot = r.inactive.encode ∧
      s.db.build = some build ∧
      Indexes (s.db.slots r.inactive) candidate.nextQueryId s.db.source := by
  obtain ⟨hcovered, hbuild, htarget⟩ := h.at hphase
  obtain ⟨states, htracks, hindex⟩ := hcovered.follows build hbuild
  have hcursor : build.replayCursor = target := by
    simp only [finalCoverage, Bool.and_eq_true, decide_eq_true_eq] at hcoverage
    exact hcoverage.1.2
  refine ⟨hcovered.active, hcovered.slot, hbuild, ?_⟩
  rw [← htracks.now, ← htarget, Nat.add_sub_cancel, ← hcursor]
  exact hindex

theorem waits_of_switching {c : Commit} (h : CommitsInv env s)
    (howner : s.maintenance.owns = true) (hbuild : s.db.build ≠ none)
    (hc : s.commits graph = some c) : c.phase.owns = false ∧ c.phase.owes = false := by
  have hok := h.commits graph c hc
  constructor
  · by_contra howns
    have hgate := hok.gate (by simpa using howns)
    rw [h.maintenance howner] at hgate
    simp at hgate
  · by_contra howes
    exact hbuild (hok.solvent (by simpa using howes))

theorem indexInv_switch (h : IndexInv env s) (hstep : IndexStep env s .switch s') :
    IndexInv env s' := by
  cases hstep with
  | @switch r candidate build target hphase hdone hcoverage =>
    obtain ⟨hactive, hslot, hbuild, _⟩ := switch_indexes h hphase hcoverage
    have howner : s.maintenance.owns = true := by
      rw [hphase]
      rfl
    refine ⟨⟨?_, by simp [owns], by simp [locks], ⟨by simp [switch], ?_⟩⟩, trivial⟩
    · intro graph c hc
      obtain ⟨howns, howes⟩ := waits_of_switching h.commits howner (by simp [hbuild]) hc
      refine (h.commits.commits graph c hc).frame (fun hgate => ?_) (fun _ _ => Iff.rfl)
        (by simp [howns]) (by simp [howes]) (by simp [howns, howes])
      rw [h.commits.maintenance howner] at hgate
      simp at hgate
    · intro record hrecord
      cases hrecord
      refine ⟨r.inactive, ?_, by simp [Rebuild.inactive]⟩
      show decode candidate.activeSlot = _
      rw [hslot, decode_encode]

/-! ## Every run -/

theorem rebuildActive_failUnrepaired (db : IndexDb) :
    rebuildActive db.failUnrepairedDebt.header = rebuildActive db.header := by
  unfold failUnrepairedDebt
  split
  · rfl
  · exact rebuildActive_previous db.header

theorem recordsOk_failUnrepaired (h : RecordsOk db) : RecordsOk db.failUnrepairedDebt := by
  have hkept : db.failUnrepairedDebt.build = db.build ∧
      db.failUnrepairedDebt.cleanup = db.cleanup := by
    unfold failUnrepairedDebt
    split <;> exact ⟨rfl, rfl⟩
  exact h.of_active (rebuildActive_failUnrepaired db) (fun b hb => ⟨b, hkept.1 ▸ hb, rfl⟩)
    fun r hr => Or.inl (hkept.2 ▸ hr)

theorem indexInv_of_idle (hquiet : s.Quiet) (hidle : s.maintenance = .idle)
    (hrecords : RecordsOk s.db) : IndexInv env s where
  commits := by
    refine ⟨fun graph c hc => ?_, ?_, ?_, hrecords⟩
    · rw [hquiet graph] at hc
      simp at hc
    · simp [hidle, owns]
    · simp [hidle, locks]
  rebuild := by
    rw [hidle]
    trivial

/-- **Every step keeps the invariant.** -/
theorem indexInv_step {action : IndexAction} (h : IndexInv env s)
    (hstep : IndexStep env s action s') : IndexInv env s' := by
  cases action with
  | commit graph => exact indexInv_commit h hstep
  | failDebt graph => exact indexInv_failDebt h hstep
  | maintain => exact (maintain_maintained h hstep).inv
  | switch => exact indexInv_switch h hstep
  | failUnrepaired =>
    cases hstep with
    | failUnrepaired hidle hquiet =>
      exact indexInv_of_idle hquiet hidle (recordsOk_failUnrepaired h.commits.records)
  | crash =>
    cases hstep with
    | crash => exact indexInv_of_idle (fun _ => rfl) rfl h.commits.records
  | reopen =>
    cases hstep with
    | reopen hclosed hquiet hidle =>
      exact indexInv_of_idle hquiet hidle (recordsOk_failUnrepaired h.commits.records)

variable {start : IndexDb → Prop}

theorem indexInv_reachable {allowed : IndexState → IndexAction → Prop}
    (h : Reachable (indexSystem env start) allowed s) : IndexInv env s := by
  refine h.invariant (P := IndexInv env) (fun s hs => ?_) fun s action s' hs _ hstep =>
    indexInv_step hs hstep
  refine indexInv_of_idle hs.1.quiet hs.1.idle ⟨?_, ?_⟩
  · simp [hs.1.build]
  · simp [hs.1.cleanup]

/-- **Rebuilds are exact.** In every run of commits, rebuilds, recoveries and crashes: the
switch of a rebuild leaves a header that is ready for the other slot, and that slot indexes the
source of the same database state; every other step of a rebuild or a recovery leaves the
header and the slot that it names as they are. -/
theorem rebuild_exact (h : Reachable (indexSystem env fun _ => True) anyStep s) :
    (IndexStep env s .switch s' → ∃ ready active, rebuildActive s.db.header = some active ∧
      s'.db.header = .valid ready ∧ ready.state = .ready ∧
      IndexSlot.decode ready.activeSlot = some active.other ∧
      Indexes (s'.db.slots active.other) ready.nextQueryId s'.db.source) ∧
    (IndexStep env s .maintain s' → s'.db.header = s.db.header ∧
      ∀ active, rebuildActive s.db.header = some active →
        s'.db.slots active = s.db.slots active) := by
  have hinv := indexInv_reachable h
  constructor
  · intro hstep
    cases hstep with
    | @switch r candidate build target hphase hdone hcoverage =>
      obtain ⟨hactive, hslot, _, hindex⟩ := switch_indexes hinv hphase hcoverage
      refine ⟨{ candidate with state := .ready }, r.active, hactive, rfl, rfl, ?_, hindex⟩
      show decode candidate.activeSlot = _
      rw [hslot, decode_encode]
      rfl
  · intro hstep
    have hmaintained := maintain_maintained hinv hstep
    exact ⟨hmaintained.header, hmaintained.slots⟩

/-! ### A rebuild of one row, and a commit while it scans -/

section Next

variable {allowed : IndexState → IndexAction → Prop} {c : Commit} {gate : Option GateOwner}
  {phase : CommitPhase} (h : Reachable (indexSystem env start) allowed s)
include h

theorem reachable_next {action : IndexAction} (hstep : IndexStep env s action s')
    (hallowed : allowed s action) : Reachable (indexSystem env start) allowed s' :=
  .step action h hallowed hstep

/-- A commit of one new row starts. -/
theorem reachable_start (quad : EncodedQuad) (hopened : s.opened = true)
    (hlock : s.maintenance.locks = false) (hguard : s.commits quad.graph = none)
    (hnew : quad ∉ s.db.source) (hallowed : allowed s (.commit quad.graph)) :
    Reachable (indexSystem env start) allowed
      (s.setCommit quad.graph (some ⟨[.insert quad], .started⟩)) := by
  refine reachable_next h (.start hopened hlock hguard ⟨?_, trivial⟩ ?_) hallowed
  · exact iff_of_false hnew (by simp [QuadMutation.change])
  · simp [QuadMutation.change]

theorem reachable_move (graph : TermId) (hc : s.commits graph = some c)
    (hmove : CommitMove env s.db graph c.mutations s.gate c.phase gate (some phase))
    (hallowed : allowed s (.commit graph)) : Reachable (indexSystem env start) allowed
      { s.setCommit graph (some ⟨c.mutations, phase⟩) with gate := gate } :=
  reachable_next h (.move hc hmove) hallowed

end Next

def blankSpaces : IndexSpaces where
  orders _ := ⟨∅, ∅⟩
  termToQuery _ := .missing
  queryToTerm _ := .missing
  counters _ := .missing
  revisions _ := .missing

theorem blankSpaces_clearSpace (space : SlotSpace) :
    blankSpaces.clearSpace blankSpaces space = blankSpaces := by
  cases space with
  | order o =>
    have hsame : (blankSpaces.orders o).without (blankSpaces.orders o) = blankSpaces.orders o :=
      show OrderSpace.without ⟨∅, ∅⟩ ⟨∅, ∅⟩ = ⟨∅, ∅⟩ by decide
    rw [IndexSpaces.clearSpace, hsame, update_eq_self]
  | termToQuery => rfl
  | queryToTerm => rfl
  | metadata => rfl

def indexedQuad : EncodedQuad := ⟨1, 11, 12, 13⟩

/-- A store with one source row and an index that was never built. -/
def unindexed (build : Option QueryBuildRecord) : IndexDb where
  source := {indexedQuad}
  slots _ := blankSpaces
  header := .absent
  debts := ∅
  build := build
  cleanup := none
  deltas _ := none

def maintainedState (db : IndexDb) (gate : Option GateOwner) (m : Maintenance) : IndexState where
  db := db
  opened := true
  gate := gate
  debtNext := 1
  commits _ := none
  maintenance := m

/-- Clearing a blank slot, keyspace by keyspace. -/
theorem reachable_cleared {build : Option QueryBuildRecord}
    {after : AfterClear} (todo : List SlotSpace)
    (h : Reachable (indexSystem env start) anyStep
      (maintainedState (unindexed build) none (.clearing slot todo none after))) :
    Reachable (indexSystem env start) anyStep
      (maintainedState (unindexed build) none (.clearing slot [] none after)) := by
  induction todo with
  | nil => exact h
  | cons space todo ih =>
    have hread := reachable_next h (.recover (.clearRead rfl)) trivial
    have hcleared := reachable_next hread (.recover (.clearSpace rfl)) trivial
    have hdb : (unindexed build).writeSlot slot
        (blankSpaces.clearSpace blankSpaces space) = unindexed build := by
      rw [blankSpaces_clearSpace, writeSlot]
      exact congrArg (fun slots => { unindexed build with slots := slots })
        (update_eq_self slot (unindexed build).slots)
    refine ih ?_
    rw [← hdb]
    exact hcleared

def laterQuad : EncodedQuad := ⟨1, 11, 12, 14⟩

def unitEnv : IndexEnv := ⟨fun _ => 0, List.length⟩

def indexedChunk : IndexUpdatePlan where
  slot := .secondary
  transitions := [(⟨0, 1, 2, 3⟩, true)]
  mappings := [(1, 0), (11, 1), (12, 2), (13, 3)]
  counters := [(.total, some 1), (.graph 0, some 1), (.predicate 2, some 1),
    (.graphPredicate 0 2, some 1), (.predicateObject 2 3, some 1),
    (.graphPredicateObject 0 2 3, some 1)]
  revisions := [(2, 1)]
  header := none

theorem replayQueryDelta_of_plan {db : IndexDb} {build : QueryBuildRecord} {candidate : IndexHeader}
    {target : Nat} {transitions : List NetQuadTransition} {plan : IndexUpdatePlan}
    (hbuild : db.build = some build) (hmore : build.replayCursor < target)
    (hfits : build.replayCursor + 1 < 2 ^ 64)
    (hdelta : db.deltas (build.replayCursor + 1) = some transitions)
    (hplan : planIndexUpdate db.slots candidate transitions = some plan) :
    replayQueryDelta db build candidate target =
      let build' := { build with
        replayCursor := build.replayCursor + 1
        phase := .replay
        target := some target }
      some ({ db.writeSlot plan.slot ((db.slots plan.slot).stagePlan plan) with
        build := some build' }, build',
        (plan.header.map fun h => { h with state := .building }).getD candidate) := by
  have hnot : ¬ build.replayCursor + 1 ≥ 2 ^ 64 := by omega
  simp only [replayQueryDelta, hbuild, hmore, hnot, hdelta, hplan, ne_eq, not_true, if_true,
    if_false, Option.bind_eq_bind, Option.bind_some]

theorem rebuild_exact_one_row :
    ∃ s s', Reachable (indexSystem unitEnv fun _ => True) anyStep s ∧
      IndexStep unitEnv s .switch s' ∧ s'.db.source = {indexedQuad, laterQuad} ∧
      ∃ ready active, rebuildActive s.db.header = some active ∧
        s'.db.header = .valid ready ∧ ready.state = .ready ∧
        IndexSlot.decode ready.activeSlot = some active.other ∧
        Indexes (s'.db.slots active.other) ready.nextQueryId s'.db.source := by
  have hinit : Reachable (indexSystem unitEnv fun _ => True) anyStep
      (maintainedState (unindexed none) none .idle) :=
    .init ⟨⟨rfl, fun _ => rfl, rfl, rfl, rfl⟩, trivial⟩
  have hcreated := reachable_next hinit
    (.rebuild (.create rfl rfl (fun _ => rfl) rfl rfl rfl rfl)) trivial
  have hcleared := reachable_cleared all hcreated
  have hcaptured := reachable_next hcleared
    (.rebuild (@RebuildStep.capture _ _ .secondary .primary _ 1 rfl (fun _ => rfl) rfl rfl rfl rfl
      rfl rfl)) trivial
  have hsource := reachable_next hcaptured
    (.rebuild (@RebuildStep.captureSource _ _ .primary _ _ 1 [indexedQuad] rfl (by simp) rfl))
    trivial
  have hchunk : buildIndexChunk .secondary blankSpaces [indexedQuad] 0 = some (indexedChunk, 4) := by
    decide +kernel
  have hscanned := reachable_next hsource (.rebuild (.scanChunk rfl (by simp) hchunk)) trivial
  -- a commit while the source is scanned, which leaves its delta for the replay
  have hnew : laterQuad ∉ ({indexedQuad} : Finset EncodedQuad) := by decide
  have hstarted := reachable_start hscanned laterQuad rfl rfl rfl hnew trivial
  have htaken := reachable_move hstarted 1 rfl .take trivial
  have hstaged := reachable_move htaken 1 rfl (@CommitMove.stage _ _ _ _ _ 1 _ rfl) trivial
  have hcommitted := reachable_next hstaged (@IndexStep.write _ _ 1 _ _ rfl) trivial
  have hacquired := reachable_next hcommitted (.rebuild (.acquireCursor rfl rfl)) trivial
  have hcursor := reachable_next hacquired (.rebuild (.writeCursor rfl rfl)) trivial
  have hcovered := reachable_next hcursor (.rebuild (@RebuildStep.cover _ _ _ _ 1 _ rfl)) trivial
  have htarget := reachable_next hcovered (.rebuild (.readTarget rfl rfl)) trivial
  have hreplaying := reachable_next htarget (.rebuild (.acquireReplay rfl (by decide) rfl)) trivial
  have hreplayed := reachable_next hreplaying (.rebuild (.replay rfl
    (replayQueryDelta_of_plan rfl (by decide) (by decide) rfl
      (Option.some_get (by decide +kernel)).symm))) trivial
  have hverifying := reachable_next hreplayed
    (.rebuild (.acquireVerify rfl (Nat.le_refl 1) rfl rfl)) trivial
  have hverified := reachable_next hverifying (.rebuild (.verify rfl (Nat.le_refl 1))) trivial
  have hswitching := reachable_next hverified (.rebuild (.acquireSwitch rfl rfl rfl)) trivial
  refine ⟨_, _, hswitching, .switch rfl (Nat.le_refl 1) ?covered, ?_, ?_⟩
  case covered => decide +kernel
  · decide +kernel
  · exact (rebuild_exact hswitching).1 (.switch rfl (Nat.le_refl 1) (by decide +kernel))

end Craqle
