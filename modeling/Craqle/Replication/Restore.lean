import Craqle.Replication.Join
import Craqle.Replication.Paging
import Craqle.Replication.Replay
import Craqle.Replication.Sequential

/-! # Restoring an earlier content

`restore_history` replays the history of some heads, compares the quads it gets with those of the
graph, and writes the difference as one mutation. `compare_history` returns such a difference of
two points of the history.

The difference is one of quads, but a delete that is published takes only the dots that its record
has observed. The graph therefore ends with the content at the heads exactly when each quad that
has to go is stored under its canonical terms and has only dots that the new record observes
(`restore_reaches_target`). A dot that no record of the topic brought, such as that of a batch that
was merged, stays.
-/

namespace Craqle

open QuadTable List
open Std (ExtTreeMap)

/-! ## The content at some heads -/

inductive RestoreError where
  | page (error : PageError)
  | content (error : HistoryError)
  | headsChanged
  | notApplied
  | unavailable (id : OpId)
  | panicked (panic : Panic)
  | update (error : UpdateError)
  deriving DecidableEq

/-- The complete causal past of the heads, oldest first. -/
def HistorySource.historyEntries (source : HistorySource) (query : TopicHistory) :
    Except PageError (List HistoryEntry) :=
  if query.heads = [] ∨ query.limit = 0 ∨ query.maxBytes = 0 then .error .invalidRequest
  else
    match source.historyPage query with
    | .error e => .error e
    | .ok (entries, next) => if next ≠ [] then .error .operationLimit else .ok entries.reverse

def historyRecords (entries : List HistoryEntry) : List EventRecord :=
  entries.filterMap fun entry => if entry.rejected then none else entry.record

def HistorySource.contentAt (source : HistorySource) (ox : Oxrdf) (query : TopicHistory) :
    Except RestoreError Quads :=
  match source.historyEntries query with
  | .error e => .error (.page e)
  | .ok entries =>
    match historyContent ox (historyRecords entries) with
    | .error e => .error (.content e)
    | .ok quads => .ok quads

def contentChanges (graph : GraphId) (before after : Quads) : List MaterializedQuadChange :=
  (before.keys.filter fun q => q ∉ after).map (.delete graph) ++
    (after.keys.filter fun q => q ∉ before).map (.insert graph)

def HistorySource.compareHistory (source : HistorySource) (ox : Oxrdf) (older newer : TopicHistory) :
    Except RestoreError (List MaterializedQuadChange) := do
  let before ← source.contentAt ox older
  let after ← source.contentAt ox newer
  .ok (contentChanges older.graph before after)

/-! ## `restore_history` -/

/-- Writes literal aliases in canonical form; deletes also name the alias. -/
def canonicalChange (ox : Oxrdf) (change : MaterializedQuadChange) :
    Except Panic (List MaterializedQuadChange) :=
  (resolveQuad ox change.quad).map fun quad =>
    if quad = change.quad then [change]
    else
      match change with
      | .insert graph _ => [.insert graph quad]
      | .delete graph _ => [.delete graph quad, change]

def canonicalChanges (ox : Oxrdf) (changes : List MaterializedQuadChange) :
    Except Panic (List MaterializedQuadChange) :=
  changes.foldlM (fun done change => (canonicalChange ox change).map fun more => done ++ more) []

/-- Fails unless reconciliation has consumed every head. A cursor of another branch has consumed
none. -/
def ensureApplied (source : HistorySource) (consumed : Option VectorClock) (heads : List OpId) :
    Except RestoreError Unit :=
  match consumed with
  | none => .error .notApplied
  | some clock =>
    heads.foldlM (fun _ head =>
      match source.op head with
      | none => .error (.unavailable head)
      | some op =>
        if (clock.entries[op.opMeta.actor]?.getD 0) < op.opMeta.actorSeq then
          .error .notApplied
        else .ok ()) ()

def GraphState.content (s : GraphState) : Quads := s.quads.rows.map fun _ dots => dots.toList

/-- What a restore is asked, and what the topic is when it is run: the heads it expects, those that
the topic has, what reconciliation has consumed, and whether the render hints differ. -/
structure RestoreRequest where
  query : TopicHistory
  expected : Option (List OpId)
  heads : List OpId
  consumed : Option VectorClock
  hintsChanged : Bool

/-- `restore_history` after its reconciliation pass: `none` when nothing changes, else the graph
and the batch of the new record. -/
def restoreHistory (ox : Oxrdf) (admits : GraphState → List MaterializedQuadChange → Bool)
    (actor : ActorId) (source : HistorySource) (irokle : IrokleAnswers) (request : RestoreRequest)
    (s : GraphState) : Except RestoreError (Option (GraphState × Batch)) :=
  match source.contentAt ox request.query with
  | .error e => .error e
  | .ok target =>
    if request.expected.any fun expected =>
        expected.any (· ∉ request.heads) || request.heads.any (· ∉ expected) then
      .error .headsChanged
    else
      match ensureApplied source request.consumed request.heads with
      | .error e => .error e
      | .ok () =>
        let changes := contentChanges request.query.graph s.content target
        if changes = [] ∧ request.hintsChanged = false then .ok none
        else
          match canonicalChanges ox changes with
          | .error p => .error (.panicked p)
          | .ok changes =>
            match commitSync ox admits actor request.query.graph true irokle s changes with
            | .error e => .error (.update e)
            | .ok written => .ok (some written)

/-! ## Contents are under canonical terms -/

def Quads.Canonical (ox : Oxrdf) (quads : Quads) : Prop := ∀ q ∈ quads, resolveQuad ox q = .ok q

variable {ox : Oxrdf} {escape : Char → Text} {quads : Quads}

theorem historyOp_canonical (hox : ox.PrintsNTriples escape) {quads' : Quads} {op : QuadOp}
    (h : historyOp ox quads op = .ok quads') (hquads : Quads.Canonical ox quads) :
    Quads.Canonical ox quads' := by
  unfold historyOp at h
  split at h
  · cases h
  rename_i key hkey
  have hcanonical : resolveQuad ox key = .ok key := resolveQuad_idem hox hkey
  have hinsert : ∀ dots, Quads.Canonical ox (quads.insert key dots) := by
    intro dots q hq
    rw [ExtTreeMap.mem_insert, Std.LawfulEqCmp.compare_eq_iff_eq] at hq
    rcases hq with rfl | hq
    · exact hcanonical
    · exact hquads q hq
  cases op with
  | add terms dot =>
    cases h
    exact hinsert _
  | remove terms witnessed =>
    simp only at h
    split at h
    · cases h
      exact hquads
    · cases h
      split
      · intro q hq
        exact hquads q (ExtTreeMap.mem_of_mem_erase hq)
      · exact hinsert _

theorem historyRecord_canonical (hox : ox.PrintsNTriples escape) {quads' : Quads}
    {record : EventRecord} (h : historyRecord ox quads record = .ok quads')
    (hquads : Quads.Canonical ox quads) : Quads.Canonical ox quads' := by
  unfold historyRecord at h
  split at h
  · cases h
  · cases h
    exact hquads
  · split at h
    · cases h
      exact hquads
    · exact Fallible.foldlM_preserves
        (fun _ _ _ _ hc hstep => historyOp_canonical hox hstep hc) h hquads

theorem contentAt_canonical (hox : ox.PrintsNTriples escape) {source : HistorySource}
    {query : TopicHistory} (h : source.contentAt ox query = .ok quads) :
    Quads.Canonical ox quads := by
  unfold HistorySource.contentAt at h
  split at h
  · cases h
  split at h
  · cases h
  rename_i content hcontent
  cases h
  refine Fallible.foldlM_preserves
    (fun _ _ _ _ hc hstep => historyRecord_canonical hox hstep hc) hcontent ?_
  intro q hq
  simp at hq

theorem mem_content {s : GraphState} {q : Triple} : q ∈ s.content ↔ s.quads.Live q := by
  unfold GraphState.content QuadTable.Live
  rw [ExtTreeMap.mem_map, ExtTreeMap.mem_iff_isSome_getElem?, rows_eq]
  split <;> simp_all

/-! ## The changes between two contents -/

section Changes

variable {graph : GraphId} {before after : Quads} {q : Triple} {change : MaterializedQuadChange}

/-- The changes are deletes of quads that only the first content has, and inserts of quads that
only the second one has. -/
theorem mem_contentChanges : change ∈ contentChanges graph before after ↔
    (∃ q, q ∈ before ∧ q ∉ after ∧ change = .delete graph q) ∨
      ∃ q, q ∈ after ∧ q ∉ before ∧ change = .insert graph q := by
  unfold contentChanges
  simp only [mem_append, mem_map, mem_filter, ExtTreeMap.mem_keys, decide_eq_true_eq]
  constructor
  · rintro (⟨q, ⟨hb, ha⟩, rfl⟩ | ⟨q, ⟨ha, hb⟩, rfl⟩)
    · exact .inl ⟨q, hb, ha, rfl⟩
    · exact .inr ⟨q, ha, hb, rfl⟩
  · rintro (⟨q, hb, ha, rfl⟩ | ⟨q, ha, hb, rfl⟩)
    · exact .inl ⟨q, ⟨hb, ha⟩, rfl⟩
    · exact .inr ⟨q, ⟨ha, hb⟩, rfl⟩

theorem lastChange_eq_none {changes : List MaterializedQuadChange}
    (h : ∀ change ∈ changes, ¬ change.On ox q) : lastChange ox changes q = none := by
  induction changes using reverseRecOn with
  | nil => rfl
  | append_singleton changes change ih =>
    rw [lastChange_concat, if_neg (h change (by simp))]
    exact ih fun c hc => h c (mem_append_left _ hc)

theorem lastChange_eq_some {changes : List MaterializedQuadChange} {inserts : Bool}
    (hsome : ∃ change ∈ changes, change.On ox q)
    (hkind : ∀ change ∈ changes, change.On ox q → change.isInsert = inserts) :
    lastChange ox changes q = some inserts := by
  induction changes using reverseRecOn with
  | nil => simp at hsome
  | append_singleton changes change ih =>
    rw [lastChange_concat]
    by_cases hon : change.On ox q
    · rw [if_pos hon, hkind change (by simp) hon]
    rw [if_neg hon]
    refine ih ?_ fun c hc => hkind c (mem_append_left _ hc)
    obtain ⟨c, hc, hcon⟩ := hsome
    rcases mem_append.mp hc with hc | hc
    · exact ⟨c, hc, hcon⟩
    · rw [mem_singleton.mp hc] at hcon
      exact absurd hcon hon

theorem on_iff_of_canonical {terms : Triple} (hquad : change.quad = terms)
    (hterms : resolveQuad ox terms = .ok terms) : change.On ox q ↔ terms = q := by
  unfold MaterializedQuadChange.On
  rw [hquad, hterms]
  simp

/-- **What happens to each quad**: one that only the first content has is deleted, one that only
the second has is inserted, and the others are left alone. -/
theorem lastChange_contentChanges (hbefore : ∀ q ∈ before, q ∉ after → resolveQuad ox q = .ok q)
    (hafter : Quads.Canonical ox after) :
    lastChange ox (contentChanges graph before after) q =
      if q ∈ before ∧ q ∉ after then some false
      else if q ∈ after ∧ q ∉ before then some true else none := by
  have hon : ∀ change ∈ contentChanges graph before after, change.On ox q →
      (q ∈ before ∧ q ∉ after ∧ change.isInsert = false) ∨
        (q ∈ after ∧ q ∉ before ∧ change.isInsert = true) := by
    intro change hmem hch
    rcases mem_contentChanges.mp hmem with ⟨p, hb, ha, rfl⟩ | ⟨p, ha, hb, rfl⟩
    · obtain rfl := (on_iff_of_canonical rfl (hbefore p hb ha)).mp hch
      exact .inl ⟨hb, ha, rfl⟩
    · obtain rfl := (on_iff_of_canonical rfl (hafter p ha)).mp hch
      exact .inr ⟨ha, hb, rfl⟩
  split
  · rename_i hdelete
    refine lastChange_eq_some ⟨.delete graph q, ?_, ?_⟩ fun change hmem hch => ?_
    · exact mem_contentChanges.mpr (.inl ⟨q, hdelete.1, hdelete.2, rfl⟩)
    · exact hbefore q hdelete.1 hdelete.2
    · rcases hon change hmem hch with ⟨_, _, hkind⟩ | ⟨ha, _, _⟩
      · exact hkind
      · exact absurd ha hdelete.2
  · rename_i hkept
    split
    · rename_i hinsert
      refine lastChange_eq_some ⟨.insert graph q, ?_, ?_⟩ fun change hmem hch => ?_
      · exact mem_contentChanges.mpr (.inr ⟨q, hinsert.1, hinsert.2, rfl⟩)
      · exact hafter q hinsert.1
      · rcases hon change hmem hch with ⟨hb, _, _⟩ | ⟨_, _, hkind⟩
        · exact absurd hb hinsert.2
        · exact hkind
    · rename_i hsame
      refine lastChange_eq_none fun change hmem hch => ?_
      rcases hon change hmem hch with ⟨hb, ha, _⟩ | ⟨ha, hb, _⟩
      · exact hkept ⟨hb, ha⟩
      · exact hsame ⟨ha, hb⟩

/-- Made one by one, the changes turn the first content into the second. -/
theorem sequentialLive_contentChanges {live : Triple → Bool}
    (hlive : ∀ q, live q = true ↔ q ∈ before)
    (hbefore : ∀ q ∈ before, q ∉ after → resolveQuad ox q = .ok q)
    (hafter : Quads.Canonical ox after) :
    sequentialLive ox live (contentChanges graph before after) q = true ↔ q ∈ after := by
  rw [sequentialLive_eq, lastChange_contentChanges hbefore hafter]
  have hq := hlive q
  split
  · rename_i hdelete
    simp [hdelete.2]
  rename_i hkept
  split
  · rename_i hinsert
    simp [hinsert.1]
  · rename_i hsame
    simp only [Option.getD_none, hq]
    tauto

end Changes

/-! ## What a restore leaves -/

theorem canonicalChanges_eq_self {changes : List MaterializedQuadChange}
    (h : ∀ change ∈ changes, resolveQuad ox change.quad = .ok change.quad) :
    canonicalChanges ox changes = .ok changes := by
  refine (Fallible.foldlM_collect (P := fun _ => True) (g := fun change => [change])
    fun change hmem done out => ?_).mpr ⟨fun _ _ => trivial, (flatMap_singleton' _).symm⟩
  rw [canonicalChange, h change hmem]
  simp [Except.map, eq_comm]

section Restore

variable {admits : GraphState → List MaterializedQuadChange → Bool} {actor : ActorId}
  {source : HistorySource} {irokle : IrokleAnswers} {request : RestoreRequest} {s s' : GraphState}
  {b : Batch} {target : Quads}

theorem restoreHistory_cases (hirokle : irokle.Documented)
    (htarget : source.contentAt ox request.query = .ok target)
    (h : restoreHistory ox admits actor source irokle request s = .ok (some (s', b))) :
    ∃ changes,
      canonicalChanges ox (contentChanges request.query.graph s.content target) = .ok changes ∧
      applyOps ox s.quads (changes.map (·.toOp ⟨irokle.record.actor, irokle.record.actorSeq⟩
        irokle.record.observedClock)) = .ok s'.quads := by
  unfold restoreHistory at h
  rw [htarget] at h
  simp only at h
  split at h
  · cases h
  split at h
  · cases h
  split at h
  · cases h
  split at h
  · cases h
  rename_i changes hchanges
  split at h
  · cases h
  rename_i written hcommit
  cases h
  refine ⟨changes, hchanges, ?_⟩
  rcases commitSync_cases hirokle hcommit with ⟨rfl, rfl⟩ | ⟨_, happly, _⟩
  · rfl
  · exact happly

/-- Every quad that has to go is stored under its canonical terms, with dots that the new record
observes. -/
def Removable (ox : Oxrdf) (s : GraphState) (target : Quads) (observed : VectorClock) : Prop :=
  ∀ q, s.quads.Live q → q ∉ target →
    resolveQuad ox q = .ok q ∧ ∀ d ∈ s.quads.dots q, observed.contains d = true

theorem removable_of_restored {changes : List MaterializedQuadChange} {dot : Dot}
    {observed : VectorClock} (hox : ox.PrintsNTriples escape)
    (happly : applyOps ox s.quads (changes.map (·.toOp dot observed)) = .ok s'.quads)
    (h : ∀ q, s'.quads.Live q ↔ q ∈ target) : Removable ox s target observed := by
  intro q hlive hnot
  have hgone : ¬ s'.quads.Live q := fun hl => hnot ((h q).mp hl)
  obtain ⟨d₀, hd₀⟩ := (live_iff _ _).mp hlive
  constructor
  · by_contra hcanonical
    -- no change is on a quad that is not canonical
    have hnone : lastChange ox changes q = none :=
      lastChange_eq_none fun change _ hon => hcanonical (resolveQuad_idem hox hon)
    have hleft := leftBy_lastChange (q := q) happly
    rw [hnone] at hleft
    exact hgone ((live_iff _ _).mpr ⟨d₀, (hleft d₀).mpr hd₀⟩)
  · intro d hd
    by_contra hobserved
    have hkept := (mem_of_not_witnessed (q := q) happly (by simpa using hobserved)).mpr (.inl hd)
    exact hgone ((live_iff _ _).mpr ⟨d, hkept⟩)

theorem restored_of_removable (hox : ox.PrintsNTriples escape) (hirokle : irokle.Documented)
    (htarget : source.contentAt ox request.query = .ok target)
    (h : restoreHistory ox admits actor source irokle request s = .ok (some (s', b)))
    (hremovable : Removable ox s target irokle.record.observedClock) (q : Triple) :
    s'.quads.Live q ↔ q ∈ target := by
  obtain ⟨changes, hchanges, happly⟩ := restoreHistory_cases hirokle htarget h
  have hcanonical := contentAt_canonical hox htarget
  have hcurrent : ∀ q ∈ s.content, q ∉ target → resolveQuad ox q = .ok q := fun q hq hnot =>
    (hremovable q (mem_content.mp hq) hnot).1
  have hself : ∀ change ∈ contentChanges request.query.graph s.content target,
      resolveQuad ox change.quad = .ok change.quad := by
    intro change hmem
    rcases mem_contentChanges.mp hmem with ⟨p, hb, ha, rfl⟩ | ⟨p, ha, hb, rfl⟩
    · exact hcurrent p hb ha
    · exact hcanonical p ha
  rw [canonicalChanges_eq_self hself] at hchanges
  cases hchanges
  have hlive : ∀ q, decide (s.quads.Live q) = true ↔ q ∈ s.content := fun q => by
    rw [decide_eq_true_eq, mem_content]
  rw [(live_iff_sequential happly).mpr ?_ q]
  · exact sequentialLive_contentChanges hlive hcurrent hcanonical
  · intro p hlast
    rw [lastChange_contentChanges hcurrent hcanonical] at hlast
    split at hlast
    · rename_i hdelete
      refine ⟨(hremovable p (mem_content.mp hdelete.1) hdelete.2).2, ?_⟩
      -- the quad is deleted, so the run does not insert it
      rintro ⟨change, hmem, hinsert, hon⟩
      rcases mem_contentChanges.mp hmem with ⟨r, _, _, rfl⟩ | ⟨r, hr, _, rfl⟩
      · cases hinsert
      · obtain rfl := (on_iff_of_canonical rfl (hcanonical r hr)).mp hon
        exact absurd hr hdelete.2
    · split at hlast <;> cases hlast

end Restore

theorem restore_reaches_target {ox : Oxrdf} {escape : Char → Text} (hox : ox.PrintsNTriples escape)
    (admits : GraphState → List MaterializedQuadChange → Bool) (actor : ActorId)
    (source : HistorySource) {irokle : IrokleAnswers} (hirokle : irokle.Documented) :
    (∀ request s s' b target, source.contentAt ox request.query = .ok target →
      restoreHistory ox admits actor source irokle request s = .ok (some (s', b)) →
      ((∀ q, s'.quads.Live q ↔ q ∈ target) ↔ Removable ox s target irokle.record.observedClock)) ∧
    (∀ older newer before after changes, source.contentAt ox older = .ok before →
      source.contentAt ox newer = .ok after →
      source.compareHistory ox older newer = .ok changes →
      ∀ q, sequentialLive ox (fun q => decide (q ∈ before)) changes q = true ↔ q ∈ after) := by
  refine ⟨fun request s s' b target htarget h => ⟨fun hlive => ?_, fun hremovable q => ?_⟩,
    fun older newer before after changes hbefore hafter hchanges q => ?_⟩
  · obtain ⟨changes, _, happly⟩ := restoreHistory_cases hirokle htarget h
    exact removable_of_restored hox happly hlive
  · exact restored_of_removable hox hirokle htarget h hremovable q
  · unfold HistorySource.compareHistory at hchanges
    rw [hbefore, hafter] at hchanges
    cases hchanges
    exact sequentialLive_contentChanges (fun q => by simp)
      (fun p hp _ => contentAt_canonical hox hbefore p hp) (contentAt_canonical hox hafter)

/-! ### A topic of two inserts -/

/-- Operation 102 inserts a second quad after operation 101 inserted the first. -/
def twoInserts : HistorySource where
  op id :=
    if id = 101 then some ⟨[], 1, firstInsert.opMeta, 1, .event firstInsert.event, 10⟩
    else if id = 102 then some ⟨[101], 1, secondInsert.opMeta, 2, .event secondInsert.event, 10⟩
    else none
  checkCommit _ := true
  rejected _ := false

def backToFirst : RestoreRequest where
  query := ⟨sampleGraph, [101], 10, 100⟩
  expected := some [102]
  heads := [102]
  consumed := some ((VectorClock.new.advance 1 1).advance 1 2)
  hintsChanged := false

def restoreAnswers : IrokleAnswers where
  frontier := ⟨9, VectorClock.new.advance 1 2⟩
  unapplied := none
  record := ⟨9, 1, VectorClock.new.advance 1 2⟩
  frontierAfter := ⟨9, (VectorClock.new.advance 1 2).advance 9 1⟩
  unappliedAfter := some 1

/-- The graph with both records applied. -/
def insertedGraph : GraphState where
  present := true
  tombstone := none
  quads := (QuadTable.empty.insertQuad sampleQuad ⟨1, 1⟩).insertQuad otherQuad ⟨1, 2⟩
  clock := VectorClock.new.advance 1 2
  logHeads := ∅

def restoredGraph : GraphState where
  present := true
  tombstone := none
  quads := QuadTable.empty.insertQuad sampleQuad ⟨1, 1⟩
  clock := (VectorClock.new.advance 1 2).advance 9 1
  logHeads := ∅

def restoreBatch : Batch :=
  ⟨sampleGraph, 9, 1, VectorClock.new.advance 1 2,
    [.remove otherQuad (VectorClock.new.advance 1 2)]⟩

def firstContent : Quads := (∅ : Quads).insert sampleQuad [⟨1, 1⟩]

theorem insertedGraph_removable :
    Removable ntriplesOxrdf insertedGraph firstContent restoreAnswers.record.observedClock := by
  have hdots : ∀ q d, d ∈ insertedGraph.quads.dots q →
      (q = sampleQuad ∧ d = ⟨1, 1⟩) ∨ (q = otherQuad ∧ d = ⟨1, 2⟩) := by
    intro q d hd
    have hd : d ∈ ((empty.insertQuad sampleQuad ⟨1, 1⟩).insertQuad otherQuad ⟨1, 2⟩).dots q := hd
    rw [mem_dots_insertQuad, mem_dots_insertQuad] at hd
    rcases hd with (hd | ⟨rfl, rfl⟩) | ⟨rfl, rfl⟩
    · simp at hd
    · exact .inl ⟨rfl, rfl⟩
    · exact .inr ⟨rfl, rfl⟩
  intro q hlive hnot
  obtain ⟨d₀, hd₀⟩ := (live_iff _ _).mp hlive
  have hq : q = otherQuad := by
    rcases hdots q d₀ hd₀ with ⟨rfl, -⟩ | ⟨hq, -⟩
    · exact absurd (by decide +kernel : sampleQuad ∈ firstContent) hnot
    · exact hq
  subst hq
  refine ⟨by decide +kernel, fun d hd => ?_⟩
  rcases hdots _ d hd with ⟨hq, -⟩ | ⟨-, rfl⟩
  · exact absurd hq (by decide +kernel)
  · decide +kernel

theorem restore_reaches_target_first :
    restoreHistory ntriplesOxrdf (fun _ _ => true) 9 twoInserts restoreAnswers backToFirst
        insertedGraph = .ok (some (restoredGraph, restoreBatch)) ∧
      ∀ q, restoredGraph.quads.Live q ↔ q ∈ firstContent := by
  have hrun : restoreHistory ntriplesOxrdf (fun _ _ => true) 9 twoInserts restoreAnswers
      backToFirst insertedGraph = .ok (some (restoredGraph, restoreBatch)) := by
    decide +kernel
  have hexact := (restore_reaches_target ntriplesOxrdf_prints (fun _ _ => true) 9 twoInserts
    ⟨rfl, by decide +kernel, by decide +kernel⟩).1 backToFirst insertedGraph restoredGraph
    restoreBatch firstContent (by decide +kernel) hrun
  exact ⟨hrun, hexact.mpr insertedGraph_removable⟩

def strayQuad : Triple := { sampleQuad with object := ⟨"<urn:x>".toList⟩ }

/-- A batch of an actor that does not write to the topic. -/
def strayBatch : Batch :=
  ⟨sampleGraph, 5, 1, VectorClock.new, [.add strayQuad ⟨5, 1⟩]⟩

/-- The quad of the merged batch is live after the restore although the content at the heads is
without it: no record of the topic brought its dot, so the new record does not observe it. -/
theorem restore_keeps_merged_quad :
    twoInserts.contentAt ntriplesOxrdf backToFirst.query = .ok firstContent ∧
    ∃ s' b, restoreHistory ntriplesOxrdf (fun _ _ => true) 9 twoInserts restoreAnswers backToFirst
        (mergeBatch ntriplesOxrdf insertedGraph strayBatch).1 = .ok (some (s', b)) ∧
      s'.quads.Live strayQuad ∧
      strayQuad ∉ firstContent := by
  refine ⟨by decide +kernel, { restoredGraph with
      quads := restoredGraph.quads.insertQuad strayQuad ⟨5, 1⟩
      clock := ((VectorClock.new.advance 1 2).advance 5 1).advance 9 1 },
    { restoreBatch with ops := [.remove otherQuad (VectorClock.new.advance 1 2),
        .remove strayQuad (VectorClock.new.advance 1 2)] },
    ?_, ?_, ?_⟩
  all_goals decide +kernel

end Craqle
