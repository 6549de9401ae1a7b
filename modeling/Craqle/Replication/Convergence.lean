import Craqle.Replication.History

/-! # Strong convergence of batch merging

Replicas of one graph, one per actor, build batches with `Batch::from_changes` and exchange
them through `merge_batch`. A replica that builds a batch takes its own clock as the base and
its own next counter as the event, and applies the batch to itself, as every writer does.
`Authored` is every run of this system, and `Authored.wellAuthored` shows that the batches of
a run form a history. Two replicas that were handed the same batches, in any order and any
number of times, and accepted each of them, are then in the same state.
-/

namespace Craqle

open Function List VectorClock

/-- An actor's next counter: one past what the clock has seen of it. -/
def VectorClock.nextOf (c : VectorClock) (actor : ActorId) : Nat := c.entries[actor]?.getD 0 + 1

theorem VectorClock.lt_nextOf {c : VectorClock} {actor : ActorId} {n : Nat}
    (h : c.contains ⟨actor, n⟩ = true) : n < c.nextOf actor := by
  obtain ⟨m, hm, hle⟩ := contains_iff.mp h
  have hm' : c.entries[actor]? = some m := hm
  unfold nextOf
  rw [hm']
  exact Nat.lt_succ_of_le hle

/-- The runs of a set of replicas: the state of each actor's replica, and the batches built. -/
inductive Authored (ox : Oxrdf) (graph : GraphId) : (ActorId → GraphState) → List Batch → Prop
  | init : Authored ox graph (fun _ => GraphState.unknown) []
  | build {states : ActorId → GraphState} {bs : List Batch} (a : ActorId)
      (changes : List MaterializedQuadChange) (b : Batch) :
      Authored ox graph states bs →
      Batch.fromChanges graph a ((states a).clock.nextOf a) (states a).clock changes = .ok b →
      checkBatch ox b = .ok () →
      Authored ox graph (Function.update states a (mergeBatch ox (states a) b).1) (b :: bs)
  | receive {states : ActorId → GraphState} {bs : List Batch} (a : ActorId) (b : Batch) :
      Authored ox graph states bs → b ∈ bs →
      Authored ox graph (Function.update states a (mergeBatch ox (states a) b).1) bs

namespace Authored

variable {ox : Oxrdf} {graph : GraphId} {states : ActorId → GraphState} {bs : List Batch}

theorem tombstone_eq_none (h : Authored ox graph states bs) (a : ActorId) :
    (states a).tombstone = none := by
  induction h with
  | init => rfl
  | build c changes b _ _ _ ih | receive c b _ _ ih =>
    by_cases hc : a = c
    · subst hc
      rw [update_self, tombstone_mergeBatch, ih]
    · rw [update_of_ne hc, ih]

/-- A merge at one replica loses no event at any. -/
theorem contains_update {a c : ActorId} {b : Batch} {d : Dot}
    (h : (states a).clock.contains d = true) :
    (update states c (mergeBatch ox (states c) b).1 a).clock.contains d = true := by
  by_cases hc : a = c
  · subst hc
    rw [update_self]
    exact contains_mergeBatch h
  · rw [update_of_ne hc]
    exact h

/-- A built batch is ready at its author. -/
theorem checkCausalBase_build {s : GraphState} {a : ActorId} {b : Batch}
    (hactor : b.actor = a) (hcounter : b.counter = s.clock.nextOf a) (hbase : b.baseClock = s.clock) :
    checkCausalBase s b = .ok () := by
  refine checkCausalBase_eq_ok_iff.mpr ⟨?_, ?_⟩
  · intro _
    rw [Bool.eq_false_iff]
    intro hc
    have hseen : s.clock.contains ⟨a, b.counter⟩ = true := by
      rw [← hbase, ← hactor]
      exact hc
    have hlt := lt_nextOf hseen
    omega
  · intro d hd
    rw [← hbase]
    exact hd

/-- **The batches of a run are well authored**, and each is in its author's clock. -/
theorem wellAuthored_and_own (h : Authored ox graph states bs) :
    WellAuthored ox graph bs ∧
      ∀ b ∈ bs, (states b.actor).clock.contains b.identity = true := by
  induction h with
  | init =>
    refine ⟨⟨?_, ?_, ?_, ?_, ?_, ?_⟩, ?_⟩ <;> simp
  | receive c b _ _ ih =>
    exact ⟨ih.1, fun b' hb' => contains_update (ih.2 b' hb')⟩
  | @build states bs a changes b hrun hbuild hcheck ih =>
    obtain ⟨hwf, hown⟩ := ih
    obtain ⟨hgraph, hb⟩ := Batch.fromChanges_eq_ok_iff.mp hbuild
    have hactor : b.actor = a := by rw [hb]
    have hcounter : b.counter = (states a).clock.nextOf a := by rw [hb]
    have hbase : b.baseClock = (states a).clock := by rw [hb]
    have hready := checkCausalBase_build hactor hcounter hbase
    -- every earlier event of the author is below the new counter and in the new base
    have hearlier : ∀ b' ∈ bs, b'.actor = a →
        b'.counter < b.counter ∧ b.baseClock.contains b'.identity = true := by
      intro b' hb' ha
      have hseen := hown b' hb'
      rw [ha] at hseen
      refine ⟨?_, hbase ▸ hseen⟩
      rw [hcounter]
      refine lt_nextOf ?_
      rw [← ha] at hseen ⊢
      exact hseen
    have hpos : 0 < b.counter := by
      rw [hcounter]
      exact Nat.succ_pos _
    refine ⟨⟨forall_mem_cons.mpr ⟨by rw [hb], hwf.graph_eq⟩,
      forall_mem_cons.mpr ⟨hcheck, hwf.checked⟩,
      forall_mem_cons.mpr ⟨hpos, hwf.positive⟩, forall_mem_cons.mpr
        ⟨(checkCausalBase_eq_ok_iff.mp hready).1 hpos, hwf.fresh⟩, ?_, ?_⟩, ?_⟩
    · intro b₁ h₁ b₂ h₂ hactors hlt
      rcases mem_cons.mp h₁ with rfl | old₁
      · rcases mem_cons.mp h₂ with rfl | old₂
        · omega
        · have := (hearlier b₂ old₂ (hactors ▸ hactor)).1
          omega
      · rcases mem_cons.mp h₂ with rfl | old₂
        · exact (hearlier b₁ old₁ (hactors.trans hactor)).2
        · exact hwf.chained b₁ old₁ b₂ old₂ hactors hlt
    · have hnew : ∀ b' ∈ bs, b'.identity ≠ b.identity := by
        intro b' hb' hid
        obtain ⟨hactors, hcounters⟩ := Dot.mk.inj hid
        exact (hearlier b' hb' (hactors.trans hactor)).1.ne hcounters
      refine forall_mem_cons.mpr ⟨forall_mem_cons.mpr ⟨fun _ => rfl, ?_⟩, ?_⟩
      · exact fun b₂ h₂ hid => absurd hid.symm (hnew b₂ h₂)
      · exact fun b₁ h₁ => forall_mem_cons.mpr
          ⟨fun hid => absurd hid (hnew b₁ h₁), hwf.unique b₁ h₁⟩
    · refine forall_mem_cons.mpr ⟨?_, fun b' hb' => contains_update (hown b' hb')⟩
      rw [hactor, update_self]
      exact (mergeBatch_ready hcheck hready (hrun.tombstone_eq_none a)).2

theorem wellAuthored (h : Authored ox graph states bs) : WellAuthored ox graph bs :=
  h.wellAuthored_and_own.1

end Authored

/-! ## Convergence -/

variable {ox : Oxrdf} {graph : GraphId} {states : ActorId → GraphState} {bs : List Batch}

theorem replica_of_accepted (h : WellAuthored ox graph bs) {S : Set Batch} (hS : ∀ b ∈ S, b ∈ bs)
    {σ : List Batch} (hσ : ∀ b ∈ σ, b ∈ S) (hacc : ∀ b ∈ S, AcceptedIn ox σ b) :
    Replica h (deliver ox σ) (Batch.identity '' S) := by
  obtain ⟨A, hA, hfrom, hin⟩ := exists_replica_deliver h σ fun b hb => hS b (hσ b hb)
  have hset : A = Batch.identity '' S := by
    ext d
    constructor
    · intro hd
      obtain ⟨b, hb, rfl⟩ := hfrom d hd
      exact ⟨b, hσ b hb, rfl⟩
    · rintro ⟨b, hb, rfl⟩
      exact hin b (hacc b hb)
  exact hset ▸ hA

/-- **Strong convergence.** Take any set of batches that replicas built in a run. Two
sequences of deliveries of them, with any reordering, repetition and retry, that each accept
every batch of the set end with the same live quads, the same dots and the same clock. -/
theorem mergeBatch_strong_convergence (h : Authored ox graph states bs) (S : Set Batch)
    (hS : ∀ b ∈ S, b ∈ bs) (σ₁ σ₂ : List Batch) (h₁ : ∀ b ∈ σ₁, b ∈ S) (h₂ : ∀ b ∈ σ₂, b ∈ S)
    (acc₁ : ∀ b ∈ S, AcceptedIn ox σ₁ b) (acc₂ : ∀ b ∈ S, AcceptedIn ox σ₂ b) :
    (∀ q, (deliver ox σ₁).quads.Live q ↔ (deliver ox σ₂).quads.Live q) ∧
      (∀ q, (deliver ox σ₁).quads.dots q = (deliver ox σ₂).quads.dots q) ∧
      (deliver ox σ₁).clock = (deliver ox σ₂).clock := by
  have hwf := h.wellAuthored
  obtain ⟨hquads, hclock⟩ := (replica_of_accepted hwf hS h₁ acc₁).quads_clock_eq
    (replica_of_accepted hwf hS h₂ acc₂)
  refine ⟨fun q => by rw [hquads], fun q => by rw [hquads], hclock⟩

set_option maxRecDepth 4000 in
/-- A run of two replicas: actor 1 adds a quad, actor 2 receives it and removes it. -/
theorem exists_authored_sample :
    ∃ states, Authored ntriplesOxrdf sampleGraph states [deleteBatch, insertBatch] := by
  have hinit : Authored ntriplesOxrdf sampleGraph (fun _ => GraphState.unknown) [] := .init
  have hinsert := Authored.build 1 [.insert sampleGraph sampleQuad] insertBatch hinit
    (by decide) (by decide)
  have hreceive := Authored.receive 2 insertBatch hinsert (by simp)
  exact ⟨_, Authored.build 2 [.delete sampleGraph sampleQuad] deleteBatch hreceive
    (by decide) (by decide)⟩

set_option maxRecDepth 4000 in
/-- The add and the observed remove in order, and with the remove first, refused and retried
after a repeated add. -/
theorem mergeBatch_strong_convergence_retry :
    isOk (mergeBatch ntriplesOxrdf (deliver ntriplesOxrdf []) deleteBatch).2 = false ∧
      (∀ q, (deliver ntriplesOxrdf [insertBatch, deleteBatch]).quads.dots q =
        (deliver ntriplesOxrdf [deleteBatch, insertBatch, insertBatch, deleteBatch]).quads.dots q) ∧
      (deliver ntriplesOxrdf [insertBatch, deleteBatch]).clock =
        (deliver ntriplesOxrdf [deleteBatch, insertBatch, insertBatch, deleteBatch]).clock := by
  obtain ⟨states, hrun⟩ := exists_authored_sample
  refine ⟨by decide, (mergeBatch_strong_convergence hrun {insertBatch, deleteBatch} ?_
    [insertBatch, deleteBatch] [deleteBatch, insertBatch, insertBatch, deleteBatch]
    ?_ ?_ ?_ ?_).2⟩
  · rintro b (rfl | rfl)
    · simp
    · simp
  · simp
  · simp
  · rintro b (rfl | rfl)
    · exact ⟨[], [deleteBatch], rfl, by decide⟩
    · exact ⟨[insertBatch], [], rfl, by decide⟩
  · rintro b (rfl | rfl)
    · exact ⟨[deleteBatch], [insertBatch, deleteBatch], rfl, by decide⟩
    · exact ⟨[deleteBatch, insertBatch, insertBatch], [], rfl, by decide⟩

end Craqle
