import Craqle.Replication.Commit

/-! # A write list as a sequence of writes

What a caller expects of a list of changes is that they are made one by one: after the list a
quad is live when its last change is an insert, and as it was when no change is of it
(`sequentialLive`).

Both commit paths run the same operations, with a dot for all inserts and one witness clock
for all deletes. `live_iff_sequential` says exactly when such a run does what is expected: a
quad whose last change is a delete must have all its dots witnessed, the run's own dot
included where the quad is also inserted. The local path witnesses its own dot and the
published record does not.
-/

namespace Craqle

open MaterializedQuadChange List

/-- The change is of quad `q`, in its canonical form. -/
def MaterializedQuadChange.On (ox : Oxrdf) (change : MaterializedQuadChange) (q : Triple) : Prop :=
  resolveQuad ox change.quad = .ok q

instance (ox : Oxrdf) (change : MaterializedQuadChange) (q : Triple) :
    Decidable (change.On ox q) :=
  inferInstanceAs (Decidable (resolveQuad ox change.quad = .ok q))

def sequentialLive (ox : Oxrdf) (live : Triple → Bool) (changes : List MaterializedQuadChange) :
    Triple → Bool :=
  changes.foldl (fun live change q => if change.On ox q then change.isInsert else live q) live

def lastChange (ox : Oxrdf) (changes : List MaterializedQuadChange) (q : Triple) : Option Bool :=
  changes.foldl (fun last change => if change.On ox q then some change.isInsert else last) none

variable {ox : Oxrdf} {changes : List MaterializedQuadChange} {q : Triple}

theorem lastChange_concat (change : MaterializedQuadChange) :
    lastChange ox (changes ++ [change]) q =
      if change.On ox q then some change.isInsert else lastChange ox changes q := by
  unfold lastChange
  rw [foldl_append]
  rfl

theorem sequentialLive_eq (live : Triple → Bool) :
    sequentialLive ox live changes q = (lastChange ox changes q).getD (live q) := by
  induction changes using reverseRecOn with
  | nil => rfl
  | append_singleton changes change ih =>
    have hstep : sequentialLive ox live (changes ++ [change]) q =
        if change.On ox q then change.isInsert else sequentialLive ox live changes q := by
      unfold sequentialLive
      rw [foldl_append]
      rfl
    rw [hstep, lastChange_concat]
    split
    · rfl
    · exact ih

/-! ## Runs of changes -/

variable {dot : Dot} {witnessed : VectorClock} {t t' : QuadTable}

theorem toOp_adds_iff (change : MaterializedQuadChange) (d : Dot) :
    (change.toOp dot witnessed).Adds ox q d ↔
      change.isInsert = true ∧ change.On ox q ∧ d = dot := by
  cases change with
  | insert g terms =>
    simp [toOp, isInsert, On, quad]
  | delete g terms => simp [toOp, isInsert]

theorem toOp_removes_iff (change : MaterializedQuadChange) (d : Dot) :
    (change.toOp dot witnessed).Removes ox q d ↔
      change.isInsert = false ∧ change.On ox q ∧ witnessed.contains d = true := by
  cases change with
  | insert g terms => simp [toOp, isInsert]
  | delete g terms =>
    simp [toOp, isInsert, On, quad]

/-- What the last change of a quad leaves of it. -/
def LeftBy (last : Option Bool) (dot : Dot) (witnessed : VectorClock) (before after : DotSet) :
    Prop :=
  match last with
  | none => ∀ d, d ∈ after ↔ d ∈ before
  | some true => dot ∈ after
  | some false => ∀ d ∈ after, witnessed.contains d = false

theorem leftBy_lastChange (h : applyOps ox t (changes.map (·.toOp dot witnessed)) = .ok t') :
    LeftBy (lastChange ox changes q) dot witnessed (t.dots q) (t'.dots q) := by
  -- induction from the end of the list, where the last change stands
  induction changes using reverseRecOn generalizing t' with
  | nil =>
    cases h
    exact fun d => Iff.rfl
  | append_singleton changes change ih =>
    rw [map_append, map_singleton] at h
    obtain ⟨mid, hmid, hstep⟩ := Fallible.foldlM_concat_eq_ok.mp h
    have hmem := fun d => mem_applyOp hstep q d
    rw [lastChange_concat]
    by_cases hon : change.On ox q
    · rw [if_pos hon]
      cases hins : change.isInsert with
      | true => exact (hmem dot).mpr (Or.inr ((toOp_adds_iff change dot).mpr ⟨hins, hon, rfl⟩))
      | false =>
        intro d hd
        rcases (hmem d).mp hd with ⟨_, hkept⟩ | hadded
        · by_contra hw
          exact hkept ((toOp_removes_iff change d).mpr ⟨hins, hon, by simpa using hw⟩)
        · rw [toOp_adds_iff, hins] at hadded
          simp at hadded
    · rw [if_neg hon]
      have hsame : mid.dots q = t'.dots q := by
        apply Std.ExtTreeSet.ext_mem
        intro d
        rw [hmem d, toOp_adds_iff, toOp_removes_iff]
        simp [hon]
      rw [← hsame]
      exact ih hmid

/-- A dot that no delete witnesses is left if it was there or the run adds it. -/
theorem mem_of_not_witnessed (h : applyOps ox t (changes.map (·.toOp dot witnessed)) = .ok t')
    {d : Dot} (hd : witnessed.contains d = false) :
    d ∈ t'.dots q ↔ d ∈ t.dots q ∨
      (d = dot ∧ ∃ change ∈ changes, change.isInsert = true ∧ change.On ox q) := by
  rw [mem_applyOps_of_not_removes h]
  · refine or_congr_right ?_
    constructor
    · rintro ⟨op, hop, hadds⟩
      obtain ⟨change, hmem, rfl⟩ := mem_map.mp hop
      obtain ⟨hins, hon, rfl⟩ := (toOp_adds_iff change d).mp hadds
      exact ⟨rfl, change, hmem, hins, hon⟩
    · rintro ⟨rfl, change, hmem, hins, hon⟩
      exact ⟨_, mem_map.mpr ⟨change, hmem, rfl⟩, (toOp_adds_iff change d).mpr ⟨hins, hon, rfl⟩⟩
  · intro op hop hrem
    obtain ⟨change, _, rfl⟩ := mem_map.mp hop
    have := ((toOp_removes_iff change d).mp hrem).2.2
    rw [hd] at this
    simp at this

def AllWitnessed (ox : Oxrdf) (changes : List MaterializedQuadChange) (dot : Dot)
    (witnessed : VectorClock) (t : QuadTable) (q : Triple) : Prop :=
  (∀ d ∈ t.dots q, witnessed.contains d = true) ∧
    ((∃ change ∈ changes, change.isInsert = true ∧ change.On ox q) → witnessed.contains dot = true)

/-- **When a run of changes is sequential.** It leaves the live quads that the changes made
one by one leave, exactly when every quad whose last change is a delete has all its dots
witnessed. -/
theorem live_iff_sequential (h : applyOps ox t (changes.map (·.toOp dot witnessed)) = .ok t') :
    (∀ q, t'.Live q ↔ sequentialLive ox (fun q => decide (t.Live q)) changes q = true) ↔
      ∀ q, lastChange ox changes q = some false → AllWitnessed ox changes dot witnessed t q := by
  refine forall_congr' fun q => ?_
  rw [sequentialLive_eq]
  have hleft := leftBy_lastChange h (q := q)
  cases hlast : lastChange ox changes q with
  | none =>
    rw [hlast] at hleft
    have hsame : t'.dots q = t.dots q := Std.ExtTreeSet.ext_mem hleft
    have hlive : t'.Live q ↔ t.Live q := by
      unfold QuadTable.Live
      rw [hsame]
    simp [hlive]
  | some inserted =>
    rw [hlast] at hleft
    cases inserted with
    | true =>
      have hlive : t'.Live q := (t'.live_iff q).mpr ⟨dot, hleft⟩
      simp [hlive]
    | false =>
      have hnone : (t'.Live q ↔ (some false).getD (decide (t.Live q)) = true) ↔
          ∀ d, d ∉ t'.dots q := by
        simp [QuadTable.live_iff]
      -- a dot that is left is not witnessed, so it was there before or is the run's own
      have hempty : (∀ d, d ∉ t'.dots q) ↔ ∀ d, witnessed.contains d = false →
          ¬ (d ∈ t.dots q ∨
            (d = dot ∧ ∃ change ∈ changes, change.isInsert = true ∧ change.On ox q)) :=
        ⟨fun hempty d hd => mt (mem_of_not_witnessed h hd).mpr (hempty d),
          fun hnone d hd => hnone d (hleft d hd) ((mem_of_not_witnessed h (hleft d hd)).mp hd)⟩
      rw [hnone, hempty, AllWitnessed]
      grind

/-! ## The two commit paths -/

section Paths

variable {admits : GraphState → List MaterializedQuadChange → Bool} {actor : ActorId}
  {graph : GraphId} {hints : Bool} {irokle : IrokleAnswers} {s s' : GraphState} {b : Batch}

/-- A topic that has no own record waiting has not applied the record published next. -/
theorem not_contains_of_not_pending (hirokle : irokle.Documented)
    (h : ownPending s irokle.frontier irokle.unapplied = none) :
    s.clock.contains ⟨irokle.record.actor, irokle.record.actorSeq⟩ = false := by
  have hseq := hirokle.seq
  have happlied : ¬ s.clock.entries[irokle.frontier.localActor]?.getD 0 >
      irokle.frontier.clock.entries[irokle.frontier.localActor]?.getD 0 := by
    intro hgt
    unfold ownPending at h
    rw [if_pos hgt] at h
    simp at h
  by_contra hcontains
  obtain ⟨head, hhead, hle⟩ := VectorClock.contains_iff.mp (by simpa using hcontains)
  rw [hirokle.actor] at hhead
  simp only [hhead, Option.getD_some] at happlied
  simp only at hle
  omega

/-- The published record is new to the graph, so its operations are run and its event is seen. -/
theorem applied_of_published {r : MergeResult} (hirokle : irokle.Documented)
    (hpending : ownPending s irokle.frontier irokle.unapplied = none)
    (hbatch : batchFromRecord ox graph irokle.record changes = .ok b)
    (h : applyIrokleGuarded ox s.createGraph b = (s', .ok r)) :
    applyOps ox s.quads (changes.map (·.toOp ⟨irokle.record.actor, irokle.record.actorSeq⟩
      irokle.record.observedClock)) = .ok s'.quads ∧
    s'.clock = s.clock.advance irokle.record.actor irokle.record.actorSeq := by
  have hb := batchFromRecord_eq hbatch
  have hnew : s.createGraph.clock.contains b.identity = false := by
    rw [hb]
    exact not_contains_of_not_pending hirokle hpending
  unfold applyIrokleGuarded at h
  rw [hnew] at h
  simp only [Bool.false_eq_true, if_false] at h
  split at h
  · next applied happlied =>
    cases h
    obtain ⟨quads, hops, rfl⟩ := Fallible.map_eq_ok.mp happlied
    rw [hb] at hops
    exact ⟨hops, by rw [hb]; rfl⟩
  · simp at h

/-- **What a commit with sync can do**: answer an empty write with no event, or apply the
changes under the dot and the observed clock of their record. -/
theorem commitSync_cases (hirokle : irokle.Documented)
    (h : commitSync ox admits actor graph hints irokle s changes = .ok (s', b)) :
    (changes = [] ∧ s' = s) ∨
      (admits s changes = true ∧
        applyOps ox s.quads (changes.map (·.toOp ⟨irokle.record.actor, irokle.record.actorSeq⟩
          irokle.record.observedClock)) = .ok s'.quads ∧
        s'.clock = s.clock.advance irokle.record.actor irokle.record.actorSeq) := by
  unfold commitSync at h
  split at h
  · simp at h
  split at h
  · next hempty =>
    cases h
    exact Or.inl ⟨hempty.1, rfl⟩
  split at h
  · simp at h
  rename_i hadmits
  refine Or.inr ⟨by simpa using hadmits, ?_⟩
  split at h
  · simp at h
  rename_i hpending
  split at h
  · simp at h
  rename_i b' hbatch
  split at h
  · simp at h
  · split at h
    · next s₁ r hr =>
      cases h
      exact applied_of_published hirokle (by simpa using hpending) hbatch hr
    · simp at h

/-- No change list entry of the quad inserts it, and every stored dot of it is covered by the
clock the local commit advances to and by what the record observed. -/
def Deletable (ox : Oxrdf) (actor : ActorId) (irokle : IrokleAnswers) (s : GraphState)
    (changes : List MaterializedQuadChange) (q : Triple) : Prop :=
  (∀ d ∈ s.quads.dots q, (∀ counter, s.nextCounter actor = .ok counter →
      (s.clock.advance actor counter).contains d = true) ∧
    irokle.record.observedClock.contains d = true) ∧
  ¬ ∃ change ∈ changes, change.isInsert = true ∧ change.On ox q

/-- **When a committed list is the sequence of its changes, on both paths.** The live quads
after the local commit and after the published one are both those of the changes made one by
one, exactly when every quad whose last change is a delete is not inserted by the list and has
no stored dot outside the two witness clocks. -/
theorem commits_sequential_iff {sl ss : GraphState} {bl bs : Batch} (hirokle : irokle.Documented)
    (hlocal : commitLocal ox admits actor graph hints s changes = .ok (sl, bl))
    (hsync : commitSync ox admits actor graph hints irokle s changes = .ok (ss, bs)) :
    ((∀ q, sl.quads.Live q ↔
        sequentialLive ox (fun q => decide (s.quads.Live q)) changes q = true) ∧
      ∀ q, ss.quads.Live q ↔
        sequentialLive ox (fun q => decide (s.quads.Live q)) changes q = true) ↔
      ∀ q, lastChange ox changes q = some false → Deletable ox actor irokle s changes q := by
  rcases commitSync_cases hirokle hsync with ⟨rfl, rfl⟩ | ⟨_, hpublished, _⟩
  · obtain ⟨_, ⟨_, _, rfl, _⟩ | ⟨_, _, counter, quads, _, hops, rfl, _⟩⟩ :=
      commitLocal_cases hlocal
    · simp [sequentialLive, lastChange]
    · -- only hints changed: the event carries no operation
      cases hops
      simp [sequentialLive, lastChange]
  rw [live_iff_sequential hpublished]
  obtain ⟨_, ⟨rfl, _, rfl, _⟩ | ⟨_, _, counter, quads, hcounter, hops, rfl, _⟩⟩ :=
    commitLocal_cases hlocal
  · simp [sequentialLive, lastChange]
  · rw [live_iff_sequential hops, ← forall_and]
    refine forall_congr' fun q => ?_
    rw [← imp_and]
    refine imp_congr_right fun _ => ?_
    have hown : (s.clock.advance actor counter).contains ⟨actor, counter⟩ = true :=
      (VectorClock.contains_advance _ _ _ _).mpr (Or.inr ⟨rfl, le_rfl⟩)
    have hunseen := hirokle.observed
    unfold AllWitnessed Deletable
    simp only [hcounter, Except.ok.injEq, forall_eq', hown, hunseen, implies_true, and_true,
      Bool.false_eq_true, imp_false]
    constructor
    · rintro ⟨hl, hs, hnot⟩
      exact ⟨fun d hd => ⟨hl d hd, hs d hd⟩, hnot⟩
    · rintro ⟨hboth, hnot⟩
      exact ⟨fun d hd => (hboth d hd).1, fun d hd => (hboth d hd).2, hnot⟩

end Paths

/-- Irokle's answers to a first write of topic actor 9 in a topic where it observed a clock. -/
def firstRecord (observed : VectorClock) : IrokleAnswers where
  frontier := ⟨9, observed⟩
  unapplied := none
  record := ⟨9, 1, observed⟩
  frontierAfter := ⟨9, observed.advance 9 1⟩
  unappliedAfter := some 1

def deletedLocal : GraphState :=
  { heldState with quads := QuadTable.empty
                   clock := heldState.clock.advance 2 1
                   logHeads := heldState.logHeads.insert 2 1 }

/-- The held replica after the delete is published and applied. -/
def deletedPublished : GraphState :=
  { heldState with quads := QuadTable.empty, clock := heldState.clock.advance 9 1 }

/-- A delete of a quad that everyone has seen does the same on both paths. -/
theorem commits_sequential_iff_delete :
    (∀ q, deletedLocal.quads.Live q ↔ sequentialLive ntriplesOxrdf
      (fun q => decide (heldState.quads.Live q)) [.delete sampleGraph sampleQuad] q = true) ∧
    ∀ q, deletedPublished.quads.Live q ↔ sequentialLive ntriplesOxrdf
      (fun q => decide (heldState.quads.Live q)) [.delete sampleGraph sampleQuad] q = true := by
  have hirokle : (firstRecord heldState.clock).Documented :=
    ⟨rfl, by decide +kernel, by decide +kernel⟩
  have hlocal : commitLocal ntriplesOxrdf (fun _ _ => true) 2 sampleGraph false heldState
      [.delete sampleGraph sampleQuad] = .ok (deletedLocal, ⟨sampleGraph, 2, 1, heldState.clock,
        [.remove sampleQuad (heldState.clock.advance 2 1)]⟩) := by
    decide +kernel
  have hsync : commitSync ntriplesOxrdf (fun _ _ => true) 2 sampleGraph false
      (firstRecord heldState.clock) heldState [.delete sampleGraph sampleQuad] =
        .ok (deletedPublished,
          ⟨sampleGraph, 9, 1, heldState.clock, [.remove sampleQuad heldState.clock]⟩) := by
    decide +kernel
  refine (commits_sequential_iff hirokle hlocal hsync).mpr fun q hlast => ?_
  have hresolved : resolveQuad ntriplesOxrdf sampleQuad = .ok sampleQuad := by decide +kernel
  have hon : sampleQuad = q := by
    by_contra hne
    have hoff : ¬ (MaterializedQuadChange.delete sampleGraph sampleQuad).On ntriplesOxrdf q := by
      intro hon
      exact hne (Except.ok.inj (hresolved.symm.trans hon))
    simp [lastChange, hoff] at hlast
  subst hon
  refine ⟨fun d hd => ?_, by simp [isInsert]⟩
  have hdots : heldState.quads.dots sampleQuad = (∅ : DotSet).insert ⟨1, 1⟩ := by decide +kernel
  rw [hdots, Ordered.mem_insert] at hd
  obtain rfl : d = ⟨1, 1⟩ := by simpa using hd
  refine ⟨fun counter hcounter => ?_, by decide +kernel⟩
  cases hcounter
  decide +kernel

theorem commits_insert_then_delete :
    ∃ sl bl ss bs,
      commitLocal ntriplesOxrdf (fun _ _ => true) 2 sampleGraph false GraphState.unknown
        [.insert sampleGraph sampleQuad, .delete sampleGraph sampleQuad] = .ok (sl, bl) ∧
      commitSync ntriplesOxrdf (fun _ _ => true) 2 sampleGraph false
        (firstRecord VectorClock.new) GraphState.unknown
        [.insert sampleGraph sampleQuad, .delete sampleGraph sampleQuad] = .ok (ss, bs) ∧
      (firstRecord VectorClock.new).Documented ∧
      sequentialLive ntriplesOxrdf (fun _ => false)
        [.insert sampleGraph sampleQuad, .delete sampleGraph sampleQuad] sampleQuad = false ∧
      ¬ sl.quads.Live sampleQuad ∧ ss.quads.Live sampleQuad := by
  refine ⟨_, _, _, _, rfl, rfl, ⟨rfl, ?_, ?_⟩, ?_, ?_, ?_⟩
  all_goals decide +kernel

end Craqle
