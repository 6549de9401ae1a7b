import Craqle.Lib.ObservedRemove
import Craqle.Replication.Merge

/-! # Histories of batches, and what a replica of one holds

A list of batches that were built by replicas of one graph is a history in the sense of
`ObservedRemove.History`: an event is a batch's own dot, and its causal past is what its base
clock has seen. `Replica` relates a graph state to the set of events it has applied: its
quads are what that set leaves, and its clock has seen an actor up to the latest applied
event of it.

The step lemma is `Replica.mergeBatch`: one call of `merge_batch` keeps the relation and
applies at most the batch at hand. The run lemma is `exists_replica_deliver`.
-/

namespace Craqle

open ObservedRemove VectorClock List

/-! ## Batches that were built by replicas -/

/-- Batches of one graph as their authors leave them: each passes the ingress check, has an
event of its own that its base has not seen, and has seen the earlier events of its actor. -/
structure WellAuthored (ox : Oxrdf) (graph : GraphId) (bs : List Batch) : Prop where
  graph_eq : ∀ b ∈ bs, b.graph = graph
  checked : ∀ b ∈ bs, checkBatch ox b = .ok ()
  positive : ∀ b ∈ bs, 0 < b.counter
  fresh : ∀ b ∈ bs, b.baseClock.contains b.identity = false
  chained : ∀ b ∈ bs, ∀ b' ∈ bs, b.actor = b'.actor → b.counter < b'.counter →
    b'.baseClock.contains b.identity = true
  unique : ∀ b ∈ bs, ∀ b' ∈ bs, b.identity = b'.identity → b = b'

namespace WellAuthored

variable {ox : Oxrdf} {graph : GraphId} {bs : List Batch} {b : Batch} {d : Dot}

theorem removes_past (h : WellAuthored ox graph bs) (hb : b ∈ bs) {op : QuadOp}
    (hop : op ∈ b.ops) {q : Triple} (hrem : op.Removes ox q d) :
    b.baseClock.contains d = true := by
  obtain ⟨quad, witnessed, rfl, _, hd⟩ := hrem
  exact (checkBatch_ok (h.checked b hb) _ hop).2 d hd

/-- The events of the batches, what they add and remove, and what they have seen. -/
def history (h : WellAuthored ox graph bs) : History Triple Dot where
  events := {d | ∃ b ∈ bs, b.identity = d}
  adds e q := ∃ b ∈ bs, b.identity = e ∧ ∃ op ∈ b.ops, op.Adds ox q e
  removes e q d := ∃ b ∈ bs, b.identity = e ∧ ∃ op ∈ b.ops, op.Removes ox q d
  past e := {d | ∃ b ∈ bs, b.identity = e ∧ b.baseClock.contains d = true}
  adds_event := by
    rintro e q ⟨b, hb, he, _⟩
    exact ⟨b, hb, he⟩
  removes_past := by
    rintro e q d ⟨b, hb, he, op, hop, hrem⟩
    exact ⟨b, hb, he, h.removes_past hb hop hrem⟩
  not_mem_past := by
    rintro e _ ⟨b, hb, rfl, hpast⟩
    rw [h.fresh b hb] at hpast
    simp at hpast

variable (h : WellAuthored ox graph bs) (hb : b ∈ bs)
include h hb

/-- What a batch with the identity of `b` does, `b` does. -/
theorem exists_identity_iff {P : Batch → Prop} :
    (∃ b' ∈ bs, b'.identity = b.identity ∧ P b') ↔ P b := by
  constructor
  · rintro ⟨b', hb', hid, hP⟩
    exact h.unique b' hb' b hb hid ▸ hP
  · intro hP
    exact ⟨b, hb, rfl, hP⟩

theorem adds_iff {q : Triple} :
    h.history.adds b.identity q ↔ ∃ op ∈ b.ops, op.Adds ox q b.identity :=
  h.exists_identity_iff hb (P := fun b' => ∃ op ∈ b'.ops, op.Adds ox q b.identity)

theorem removes_iff {q : Triple}
    : h.history.removes b.identity q d ↔ ∃ op ∈ b.ops, op.Removes ox q d :=
  h.exists_identity_iff hb

theorem mem_past_iff :
    d ∈ h.history.past b.identity ↔ b.baseClock.contains d = true :=
  h.exists_identity_iff hb

theorem eq_or_seen
    (hd : d ∈ h.history.events) (hactor : d.actor = b.actor) (hle : d.counter ≤ b.counter) :
    d = b.identity ∨ b.baseClock.contains d = true := by
  obtain ⟨b', hb', rfl⟩ := hd
  rcases Nat.lt_or_ge b'.counter b.counter with hlt | hge
  · exact Or.inr (h.chained b' hb' b hb hactor hlt)
  refine Or.inl ?_
  have hcounter : b'.counter = b.counter := by
    have : b'.identity.counter = b'.counter := rfl
    omega
  have hactor' : b'.actor = b.actor := hactor
  simp [Batch.identity, hactor', hcounter]

end WellAuthored

/-! ## The state of a replica -/

/-- Every stored dot has been seen. -/
def GraphState.Covered (s : GraphState) : Prop :=
  ∀ q d, d ∈ s.quads.dots q → s.clock.contains d = true

/-- The observed-remove map a graph state is. -/
def GraphState.toCausalMap (s : GraphState) (h : s.Covered) : CausalMap Triple Dot where
  live q := {d | d ∈ s.quads.dots q}
  seen := s.clock.seen
  live_subset q d hd := h q d hd

variable {ox : Oxrdf} {graph : GraphId} {bs : List Batch}

/-- `s` is the state of a live replica that has applied the events `A`. -/
structure Replica (h : WellAuthored ox graph bs) (s : GraphState) (A : Set Dot) : Prop where
  tombstone : s.tombstone = none
  covered : s.Covered
  represents : h.history.Represents (s.toCausalMap covered) A
  clock : ∀ d, s.clock.contains d = true ↔ ∃ e ∈ A, d.actor = e.actor ∧ d.counter ≤ e.counter

namespace Replica

variable {h : WellAuthored ox graph bs} {s s' : GraphState} {A : Set Dot}

theorem mem_dots (hs : Replica h s A) (q : Triple) (d : Dot) :
    d ∈ s.quads.dots q ↔ d ∈ h.history.liveAfter A q := by
  rw [← hs.represents.live q]
  rfl

/-- Two replicas that have applied the same events hold the same dots and the same clock. -/
theorem quads_clock_eq (hs : Replica h s A) (hs' : Replica h s' A) :
    s.quads = s'.quads ∧ s.clock = s'.clock := by
  constructor
  · apply QuadTable.ext_dots
    intro q d
    rw [hs.mem_dots, hs'.mem_dots]
  · apply ext_contains
    intro d
    rw [hs.clock, hs'.clock]

/-- The relation does not look at the graph's presence or its log. -/
theorem congr (hs : Replica h s A) (ht : s'.tombstone = s.tombstone) (hq : s'.quads = s.quads)
    (hc : s'.clock = s.clock) : Replica h s' A := by
  obtain ⟨p, t, qs, c, l⟩ := s
  obtain ⟨p', t', qs', c', l'⟩ := s'
  simp only at ht hq hc
  subst ht hq hc
  exact ⟨hs.tombstone, hs.covered, hs.represents, hs.clock⟩

theorem unknown (h : WellAuthored ox graph bs) : Replica h GraphState.unknown ∅ where
  tombstone := rfl
  covered := by
    intro q d hd
    simp [GraphState.unknown] at hd
  represents :=
    { closed := ⟨Set.empty_subset _, by simp⟩
      live := by
        intro q
        ext d
        simp [GraphState.toCausalMap, GraphState.unknown, History.liveAfter]
      seen := by
        intro d _
        simp [GraphState.toCausalMap, GraphState.unknown] }
  clock := by
    intro d
    simp [GraphState.unknown]

/-- **Applying a ready batch** adds its event to those applied. -/
theorem apply (hs : Replica h s A) {b : Batch} (hb : b ∈ bs)
    (hnew : s.clock.contains b.identity = false)
    (hbase : ∀ d, b.baseClock.contains d = true → s.clock.contains d = true) {quads : QuadTable}
    (hops : applyOps ox s.quads b.ops = .ok quads) (ht : s'.tombstone = s.tombstone)
    (hq : s'.quads = quads) (hc : s'.clock = s.clock.advance b.actor b.counter) :
    Replica h s' (insert b.identity A) := by
  have hevent : b.identity ∈ h.history.events := ⟨b, hb, rfl⟩
  -- per quad and dot: the batch's own dot is only added, every other dot only removed
  have hdots : ∀ q d, d ∈ s'.quads.dots q ↔
      (d ∈ s.quads.dots q ∧ ¬ h.history.removes b.identity q d) ∨
        (d = b.identity ∧ h.history.adds b.identity q) := by
    intro q d
    rw [hq, h.removes_iff hb, h.adds_iff hb]
    by_cases hd : d = b.identity
    · subst hd
      have hnorem : ∀ op ∈ b.ops, ¬ op.Removes ox q b.identity := by
        intro op hop hrem
        have := h.removes_past hb hop hrem
        rw [h.fresh b hb] at this
        simp at this
      have hold : b.identity ∉ s.quads.dots q := by
        intro hmem
        have := hs.covered q _ hmem
        rw [hnew] at this
        simp at this
      rw [mem_applyOps_of_not_removes hops hnorem]
      simp [hold]
    · have hnoadd : ∀ op ∈ b.ops, ¬ op.Adds ox q d := by
        rintro op hop ⟨quad, rfl, _⟩
        exact hd (checkBatch_ok (h.checked b hb) _ hop).2
      rw [mem_applyOps_of_not_adds hops hnoadd]
      simp [hd]
  have hcovered : s'.Covered := by
    intro q d hd
    rw [hc, contains_advance]
    rcases (hdots q d).mp hd with ⟨hold, _⟩ | ⟨rfl, _⟩
    · exact Or.inl (hs.covered q d hold)
    · exact Or.inr ⟨rfl, le_rfl⟩
  refine ⟨by rw [ht, hs.tombstone], hcovered, ?_, ?_⟩
  · refine hs.represents.insert hevent (by simp [GraphState.toCausalMap, hnew]) ?_ hdots ?_
    · intro d hd _
      exact hbase d ((h.mem_past_iff hb).mp hd)
    intro d hd
    show s'.clock.contains d = true ↔ d = b.identity ∨ s.clock.contains d = true
    rw [hc, contains_advance]
    constructor
    · rintro (hold | ⟨hactor, hle⟩)
      · exact Or.inr hold
      · exact (h.eq_or_seen hb hd hactor hle).imp id (hbase d)
    · rintro (rfl | hold)
      · exact Or.inr ⟨rfl, le_rfl⟩
      · exact Or.inl hold
  · intro d
    rw [hc, contains_advance, hs.clock]
    constructor
    · rintro (⟨e, he, hle⟩ | hown)
      · exact ⟨e, Set.mem_insert_of_mem _ he, hle⟩
      · exact ⟨b.identity, Set.mem_insert _ _, hown⟩
    · rintro ⟨e, rfl | he, hle⟩
      · exact Or.inr hle
      · exact Or.inl ⟨e, he, hle⟩

/-- **One merge** keeps the relation: the events applied grow by at most the batch's own, and
by it when the merge is accepted. -/
theorem mergeBatch (hs : Replica h s A) {b : Batch} (hb : b ∈ bs) :
    ∃ A', A ⊆ A' ∧ A' ⊆ insert b.identity A ∧ Replica h (mergeBatch ox s b).1 A' ∧
      (isOk (Craqle.mergeBatch ox s b).2 = true → b.identity ∈ A') := by
  rcases mergeBatch_cases ox s b with ⟨present, e, heq⟩ |
    ⟨present, heq, _, _, hskip⟩ | ⟨_, hbase, ht, hnew, quads, hops, heq⟩
  · refine ⟨A, subset_rfl, Set.subset_insert _ _, ?_, ?_⟩
    · rw [heq]
      exact hs.congr rfl rfl rfl
    · rw [heq]
      simp [isOk]
  · refine ⟨A, subset_rfl, Set.subset_insert _ _, ?_, ?_⟩
    · rw [heq]
      exact hs.congr rfl rfl rfl
    intro _
    -- the skipped event is one the clock has seen, hence one applied
    have hseen : s.clock.contains b.identity = true := by
      rcases hskip with htomb | hseen
      · rw [hs.tombstone] at htomb
        simp at htomb
      · exact hseen
    exact (hs.represents.seen _ ⟨b, hb, rfl⟩).mp hseen
  · refine ⟨insert b.identity A, Set.subset_insert _ _, subset_rfl, ?_, fun _ => Set.mem_insert _ _⟩
    rw [heq]
    exact hs.apply hb hnew (checkCausalBase_eq_ok_iff.mp hbase).2 hops rfl rfl rfl

end Replica

/-! ## Deliveries -/

/-- A replica that starts empty and is handed the batches in order. -/
def deliver (ox : Oxrdf) (σ : List Batch) : GraphState :=
  σ.foldl (fun s b => (mergeBatch ox s b).1) GraphState.unknown

/-- Some delivery of `b` in the sequence returned without an error. -/
def AcceptedIn (ox : Oxrdf) (σ : List Batch) (b : Batch) : Prop :=
  ∃ before after, σ = before ++ b :: after ∧
    isOk (mergeBatch ox (deliver ox before) b).2 = true

theorem deliver_concat (σ : List Batch) (b : Batch) :
    deliver ox (σ ++ [b]) = (mergeBatch ox (deliver ox σ) b).1 := by
  simp [deliver]

/-- **A delivery sequence** leaves a replica of events it delivered, among them every batch
it accepted. -/
theorem exists_replica_deliver (h : WellAuthored ox graph bs) (σ : List Batch)
    (hσ : ∀ b ∈ σ, b ∈ bs) :
    ∃ A, Replica h (deliver ox σ) A ∧ (∀ e ∈ A, ∃ b ∈ σ, b.identity = e) ∧
      ∀ b, AcceptedIn ox σ b → b.identity ∈ A := by
  -- from the last delivery backwards, so that the induction extends one run by one step
  induction σ using reverseRecOn with
  | nil =>
    refine ⟨∅, Replica.unknown h, by simp, ?_⟩
    rintro b ⟨before, after, heq, _⟩
    simp at heq
  | append_singleton σ c ih =>
    obtain ⟨A, hA, hfrom, hacc⟩ := ih fun b hb => hσ b (mem_append_left _ hb)
    have hc : c ∈ bs := hσ c (by simp)
    obtain ⟨A', hsub, hsup, hA', hok⟩ := hA.mergeBatch hc
    rw [← deliver_concat] at hA'
    refine ⟨A', hA', ?_, ?_⟩
    · intro e he
      rcases hsup he with rfl | he
      · exact ⟨c, by simp, rfl⟩
      · obtain ⟨b, hb, rfl⟩ := hfrom e he
        exact ⟨b, mem_append_left _ hb, rfl⟩
    · rintro b ⟨before, after, heq, hb⟩
      rcases eq_nil_or_concat after with rfl | ⟨after', last, rfl⟩
      · obtain ⟨rfl, hlast⟩ := append_inj' heq rfl
        obtain rfl : c = b := by simpa using hlast
        exact hok hb
      · refine hsub (hacc b ⟨before, after', ?_, hb⟩)
        have heq' : σ ++ [c] = (before ++ b :: after') ++ [last] := by
          rw [heq]
          simp
        exact (append_inj' heq' rfl).1

/-! ## More delivered is more accepted -/

theorem tombstone_deliver (σ : List Batch) : (deliver ox σ).tombstone = none := by
  induction σ using reverseRecOn with
  | nil => rfl
  | append_singleton σ b ih => rw [deliver_concat, tombstone_mergeBatch, ih]

/-- A live graph that has seen more accepts what one that has seen less accepts, and has seen
more afterwards. -/
theorem mergeBatch_mono {s s' : GraphState} (hlive : s'.tombstone = none)
    (hle : ∀ d, s.clock.contains d = true → s'.clock.contains d = true) (b : Batch) :
    (isOk (mergeBatch ox s b).2 = true → isOk (mergeBatch ox s' b).2 = true) ∧
      ∀ d, (mergeBatch ox s b).1.clock.contains d = true →
        (mergeBatch ox s' b).1.clock.contains d = true := by
  have hready : checkBatch ox b = .ok () → checkCausalBase s b = .ok () →
      isOk (mergeBatch ox s' b).2 = true ∧
        (mergeBatch ox s' b).1.clock.contains b.identity = true := by
    intro hcheck hbase
    obtain ⟨hown, hseen⟩ := checkCausalBase_eq_ok_iff.mp hbase
    exact mergeBatch_ready hcheck
      (checkCausalBase_eq_ok_iff.mpr ⟨hown, fun d hd => hle d (hseen d hd)⟩) hlive
  rcases mergeBatch_cases ox s b with ⟨present, e, heq⟩ |
    ⟨present, heq, hcheck, hbase, _⟩ | ⟨hcheck, hbase, _, _, quads, _, heq⟩
  · rw [heq]
    exact ⟨by simp [isOk], fun d hd => contains_mergeBatch (hle d hd)⟩
  · rw [heq]
    exact ⟨fun _ => (hready hcheck hbase).1, fun d hd => contains_mergeBatch (hle d hd)⟩
  · rw [heq]
    refine ⟨fun _ => (hready hcheck hbase).1, ?_⟩
    intro d hd
    rcases (contains_advance _ _ _ _).mp hd with hold | ⟨hactor, hcount⟩
    · exact contains_mergeBatch (hle d hold)
    · obtain ⟨a, n⟩ := d
      simp only at hactor hcount
      subst hactor
      exact contains_of_le (hready hcheck hbase).2 hcount

/-- What a sequence accepts, it accepts behind any other sequence. -/
theorem AcceptedIn.append_left {σ : List Batch} {b : Batch} (h : AcceptedIn ox σ b)
    (first : List Batch) : AcceptedIn ox (first ++ σ) b := by
  have hmono : ∀ (σ : List Batch) (d : Dot), (deliver ox σ).clock.contains d = true →
      (deliver ox (first ++ σ)).clock.contains d = true := by
    intro σ
    induction σ using reverseRecOn with
    | nil =>
      intro d hd
      simp [deliver, GraphState.unknown] at hd
    | append_singleton σ c ih =>
      intro d hd
      rw [deliver_concat] at hd
      rw [← append_assoc, deliver_concat]
      exact (mergeBatch_mono (tombstone_deliver _) ih c).2 d hd
  obtain ⟨before, after, rfl, hok⟩ := h
  refine ⟨first ++ before, after, by simp, ?_⟩
  exact (mergeBatch_mono (tombstone_deliver _) (hmono before) b).1 hok

end Craqle
