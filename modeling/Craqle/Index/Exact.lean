import Craqle.Index.Resolve
import Craqle.Lib.Updates

/-! # Index maintenance keeps the index exact

A plan for transitions that fit an exact slot, once staged, leaves an exact slot for the new
rows: the orders have changed alike, each counter by what its rows have, the mappings by new
pairs, and the duplicate-free flag stays only where the insertions keep it true.
-/

namespace Craqle

open Updates IndexSpaces Toggle List Option Prod Stored

variable {sp : IndexSpaces} {next : QueryTermId} {rows : Finset QueryQuad} {r : TermResolver}
  {changes : List (QueryQuad × Bool)}

/-! ## The staged slot -/

section Staged

variable (sp) (plan : IndexUpdatePlan)

theorem stagePlan_termToQuery : (sp.stagePlan plan).termToQuery =
    updates sp.termToQuery (plan.mappings.map fun m => (m.1, .value m.2)) := by
  simp only [stagePlan]
  rw [foldl_frame termToQuery stageRevision (fun _ _ => rfl),
    foldl_frame termToQuery stageCounter (fun _ _ => rfl),
    foldl_frame termToQuery stageRow (fun _ _ => rfl),
    foldl_field termToQuery stageMapping (fun m => (m.1, .value m.2)) (fun _ _ => rfl)]

theorem stagePlan_queryToTerm : (sp.stagePlan plan).queryToTerm =
    updates sp.queryToTerm (plan.mappings.map fun m => (m.2, .value m.1)) := by
  simp only [stagePlan]
  rw [foldl_frame queryToTerm stageRevision (fun _ _ => rfl),
    foldl_frame queryToTerm stageCounter (fun _ _ => rfl),
    foldl_frame queryToTerm stageRow (fun _ _ => rfl),
    foldl_field queryToTerm stageMapping (fun m => (m.2, .value m.1)) (fun _ _ => rfl)]

theorem stagePlan_counters : (sp.stagePlan plan).counters =
    updates sp.counters (plan.counters.map fun u => (u.1, storedCounter u.2)) := by
  simp only [stagePlan]
  rw [foldl_frame counters stageRevision (fun _ _ => rfl),
    foldl_field counters stageCounter (fun u => (u.1, storedCounter u.2))
      (fun _ _ => rfl),
    foldl_frame counters stageRow (fun _ _ => rfl),
    foldl_frame counters stageMapping (fun _ _ => rfl)]

end Staged

theorem stageRows_orders {o : IndexKeyOrder} (h : sp.orders o = ⟨rows, ∅⟩) :
    (changes.foldl stageRow sp).orders o = ⟨Toggle.apply rows changes, ∅⟩ := by
  induction changes generalizing sp rows with
  | nil => exact h
  | cons c changes ih =>
    rw [foldl_cons, apply_cons]
    apply ih
    obtain ⟨q, isLive⟩ := c
    cases isLive with
    | true => simp [stageRow, change, OrderSpace.insert, h]
    | false => simp [stageRow, change, OrderSpace.remove, h]

theorem stagePlan_orders {o : IndexKeyOrder} (h : sp.orders o = ⟨rows, ∅⟩)
    (plan : IndexUpdatePlan) :
    (sp.stagePlan plan).orders o = ⟨Toggle.apply rows plan.transitions, ∅⟩ := by
  simp only [stagePlan]
  rw [foldl_frame orders stageRevision (fun _ _ => rfl),
    foldl_frame orders stageCounter (fun _ _ => rfl)]
  apply stageRows_orders
  rw [foldl_frame orders stageMapping (fun _ _ => rfl), h]

/-! ## Mappings -/

variable {plan : IndexUpdatePlan}

theorem stagePlan_termToQuery_iff (hr : Resolved sp next r)
    (hplan : plan.mappings = r.mappings) (t : TermId) (i : QueryTermId) :
    (sp.stagePlan plan).termToQuery t = .value i ↔ Maps sp r t i := by
  rw [stagePlan_termToQuery, hplan]
  have hkeys : (r.mappings.map fun m => (m.1, value m.2)).map fst =
      r.mappings.map fst := by simp
  by_cases ht : t ∈ r.mappings.map fst
  · obtain ⟨⟨_, j⟩, hm, rfl⟩ := mem_map.mp ht
    have hwrite := mem_map_of_mem (f := fun m => (m.1, value m.2)) hm
    rw [updates_of_mem (hkeys ▸ hr.terms_nodup) hwrite]
    constructor
    · intro hij
      exact Or.inr (value.inj hij ▸ hm)
    · intro hi
      rw [hr.maps_unique hi (Or.inr hm)]
  · rw [updates_of_notMem (hkeys ▸ ht)]
    have hnot : (t, i) ∉ r.mappings := fun hm => ht (mem_map_of_mem hm)
    simp [Maps, hnot]

theorem stagePlan_queryToTerm_iff (hnum : Numbered sp next rows) (hr : Resolved sp next r)
    (hplan : plan.mappings = r.mappings) (t : TermId) (i : QueryTermId) :
    (sp.stagePlan plan).queryToTerm i = .value t ↔ Maps sp r t i := by
  rw [stagePlan_queryToTerm, hplan]
  have hkeys : (r.mappings.map fun m => (m.2, value m.1)).map fst =
      r.mappings.map snd := by simp
  by_cases hi : i ∈ r.mappings.map snd
  · obtain ⟨⟨u, _⟩, hm, rfl⟩ := mem_map.mp hi
    have hwrite := mem_map_of_mem (f := fun m => (m.2, value m.1)) hm
    rw [updates_of_mem (hkeys ▸ hr.ids_nodup) hwrite]
    constructor
    · intro hut
      exact Or.inr (value.inj hut ▸ hm)
    · intro ht
      rw [hr.maps_inj hnum ht (Or.inr hm)]
  · rw [updates_of_notMem (hkeys ▸ hi)]
    have hnot : (t, i) ∉ r.mappings := fun hm => hi (mem_map.mpr ⟨_, hm, rfl⟩)
    simp [Maps, hnot, hnum.inverse]

theorem stagePlan_denotes_iff (hr : Resolved sp next r)
    (hplan : plan.mappings = r.mappings) (e : EncodedQuad) (q : QueryQuad) :
    Denotes (sp.stagePlan plan) e q ↔ MapsQuad sp r e q := by
  have hiff := stagePlan_termToQuery_iff hr hplan
  constructor
  · intro h
    exact ⟨(hiff _ _).mp h.graph, (hiff _ _).mp h.subject, (hiff _ _).mp h.predicate,
      (hiff _ _).mp h.object⟩
  · intro h
    exact ⟨(hiff _ _).mpr h.graph, (hiff _ _).mpr h.subject, (hiff _ _).mpr h.predicate,
      (hiff _ _).mpr h.object⟩

theorem numbered_stagePlan (hnum : Numbered sp next rows) (hr : Resolved sp next r)
    (hplan : plan.mappings = r.mappings) (heff : Effective rows changes)
    (hchanges : ∀ c ∈ changes, ∃ τ, ChangeOf sp rows r τ c) :
    Numbered (sp.stagePlan plan) r.nextQueryId (Toggle.apply rows changes) where
  inverse t i := by
    rw [stagePlan_termToQuery_iff hr hplan, stagePlan_queryToTerm_iff hnum hr hplan]
  below t i ht := hr.maps_lt hnum ((stagePlan_termToQuery_iff hr hplan t i).mp ht)
  rows_below q hq i hi := by
    rcases (mem_apply heff.nodup).mp hq with hnew | ⟨hold, _⟩
    · obtain ⟨τ, hτ⟩ := hchanges _ hnew
      have hm := hτ.maps
      simp only [Quad.terms, mem_cons, not_mem_nil, or_false] at hi
      rcases hi with rfl | rfl | rfl | rfl
      · exact hr.maps_lt hnum hm.graph
      · exact hr.maps_lt hnum hm.subject
      · exact hr.maps_lt hnum hm.predicate
      · exact hr.maps_lt hnum hm.object
    · exact lt_of_lt_of_le (hnum.rows_below q hold i hi) hr.next_le

/-! ## Counters -/

variable {k : IndexCounterKey}

theorem currentCounter_eq (hexact : Exact sp next rows)
    (hk : k ≠ .unionDuplicateFree) {n : Nat} (h : currentCounter sp k = some n) :
    n = (rows.filter fun q => k.matchesQuad q).card := by
  unfold currentCounter at h
  rw [hexact.counters k hk] at h
  unfold expectedCounter at h
  by_cases hcount : k = .total ∨ (rows.filter fun q => k.matchesQuad q).card ≠ 0
  · simp only [if_pos hcount] at h
    split at h
    · exact (some.inj h).symm
    · simp at h
  simp only [if_neg hcount] at h
  split at h
  · have hzero : (rows.filter fun q => k.matchesQuad q).card = 0 := by
      by_contra hne
      exact hcount (Or.inr hne)
    rw [hzero]
    exact (some.inj h).symm
  · simp at h

theorem adjustedCounter_eq {current n : Nat} {delta : Int}
    (h : adjustedCounter current delta = some n) : (n : Int) = current + delta := by
  unfold adjustedCounter at h
  split at h
  · split at h
    · have := some.inj h
      omega
    · simp at h
  · split at h
    · have := some.inj h
      omega
    · simp at h

/-- **A planned counter** is what the counter holds for the new rows. -/
theorem planCounter_spec (hexact : Exact sp next rows) (heff : Effective rows changes)
    (hk : k ≠ .unionDuplicateFree) {update : IndexCounterKey × Option Nat}
    (h : planCounter sp changes k = some update) :
    update.1 = k ∧ storedCounter update.2 = expectedCounter (Toggle.apply rows changes) k := by
  unfold planCounter at h
  simp only [bind, bind_eq_some_iff] at h
  obtain ⟨current, hcurrent, n, hn, heq⟩ := h
  cases heq
  have hcard : n = ((Toggle.apply rows changes).filter fun q => k.matchesQuad q).card := by
    have hsum := card_filter_apply k.matchesQuad heff
    have hadjust := adjustedCounter_eq hn
    rw [currentCounter_eq hexact hk hcurrent] at hadjust
    unfold counterDelta at hadjust
    omega
  refine ⟨rfl, ?_⟩
  unfold expectedCounter
  rw [← hcard]
  by_cases hvalue : k = .total ∨ n ≠ 0
  · simp [hvalue, storedCounter]
  · simp [hvalue, storedCounter]

theorem mem_touchedCounters :
    k ∈ touchedCounters changes ↔ ∃ c ∈ changes, k.matchesQuad c.1 = true := by
  simp [touchedCounters, mem_liveCounterKeys]

theorem union_notMem_touchedCounters : .unionDuplicateFree ∉ touchedCounters changes := by
  rw [mem_touchedCounters]
  simp [IndexCounterKey.matchesQuad]

theorem card_untouched (heff : Effective rows changes) (hk : k ∉ touchedCounters changes) :
    ((Toggle.apply rows changes).filter fun q => k.matchesQuad q).card =
      (rows.filter fun q => k.matchesQuad q).card := by
  have hweights : ∀ w ∈ changes.map (weight k.matchesQuad), w = 0 := by
    intro w hw
    obtain ⟨c, hc, rfl⟩ := mem_map.mp hw
    have hno : ¬ k.matchesQuad c.1 = true := fun hm => hk (mem_touchedCounters.mpr ⟨c, hc, hm⟩)
    simp [weight, hno]
  have hsum := card_filter_apply k.matchesQuad heff
  rw [sum_eq_zero hweights] at hsum
  omega

/-- The counters after the planned ones are written, the flag apart. -/
theorem updates_planned (hexact : Exact sp next rows) (heff : Effective rows changes)
    {counters : List (IndexCounterKey × Option Nat)}
    (h : (touchedCounters changes).mapM (planCounter sp changes) = some counters)
    (hk : k ≠ .unionDuplicateFree) :
    updates sp.counters (counters.map fun u => (u.1, storedCounter u.2)) k =
      expectedCounter (Toggle.apply rows changes) k := by
  refine updates_mapM (nodup_dedup _) h ?_ ?_ ?_
  · intro k' hk' u hu
    have hne : k' ≠ .unionDuplicateFree := fun heq => union_notMem_touchedCounters (heq ▸ hk')
    exact (planCounter_spec hexact heff hne hu).1
  · intro u _ hu
    exact (planCounter_spec hexact heff hk hu).2
  · intro hout
    rw [hexact.counters k hk]
    simp [expectedCounter, card_untouched heff hout]

/-- The planned counters leave the flag alone. -/
theorem updates_planned_union (hexact : Exact sp next rows) (heff : Effective rows changes)
    {counters : List (IndexCounterKey × Option Nat)}
    (h : (touchedCounters changes).mapM (planCounter sp changes) = some counters) :
    updates sp.counters (counters.map fun u => (u.1, storedCounter u.2)) .unionDuplicateFree =
      sp.counters .unionDuplicateFree := by
  refine updates_mapM (nodup_dedup _) h ?_ ?_ fun _ => rfl
  · intro k' hk' u hu
    have hne : k' ≠ .unionDuplicateFree := fun heq => union_notMem_touchedCounters (heq ▸ hk')
    exact (planCounter_spec hexact heff hne hu).1
  · intro u hmem
    exact absurd hmem union_notMem_touchedCounters

/-! ## The duplicate-free flag -/

/-- The insertions add new triples only, each once. -/
structure NewTriples (rows : Finset QueryQuad) (changes : List (QueryQuad × Bool)) : Prop where
  fresh : ∀ q, (q, true) ∈ changes → ∀ row ∈ rows, row.spo ≠ q.spo
  distinct : ∀ q q', (q, true) ∈ changes → (q', true) ∈ changes → q.spo = q'.spo → q = q'

theorem NewTriples.unionFree (h : NewTriples rows changes) (heff : Effective rows changes)
    (hfree : UnionFree rows) : UnionFree (Toggle.apply rows changes) := by
  intro q hq q' hq' hspo
  rw [mem_apply heff.nodup] at hq hq'
  rcases hq with hnew | ⟨hold, _⟩
  · rcases hq' with hnew' | ⟨hold', _⟩
    · exact h.distinct q q' hnew hnew' hspo
    · exact absurd hspo.symm (h.fresh q hnew q' hold')
  · rcases hq' with hnew' | ⟨hold', _⟩
    · exact absurd hspo (h.fresh q' hnew' q hold)
    · exact hfree q hold q' hold' hspo

theorem spo_fresh (hexact : Exact sp next rows) (hr : Resolved sp next r) {q : QueryQuad}
    (h : usesNewTerm r.mappings q = true ∨ indexSpoExists sp q = false) :
    ∀ row ∈ rows, row.spo ≠ q.spo := by
  intro row hrow hspo
  rcases h with hnew | hnone
  · obtain ⟨m, hm, hid⟩ := any_eq_true.mp hnew
    have hbelow := hexact.rows_below row hrow
    simp only [Quad.spo, Prod.mk.injEq] at hspo
    have hmem : m.2 ∈ row.terms := by
      simp only [Bool.or_eq_true, decide_eq_true_eq] at hid
      rcases hid with (hs | hp) | ho
      · simp [Quad.terms, hspo.1, hs]
      · simp [Quad.terms, hspo.2.1, hp]
      · simp [Quad.terms, hspo.2.2, ho]
    exact absurd (hbelow _ hmem) (Nat.not_lt.mpr (hr.fresh m hm).2.2.1)
  · have hsome : indexSpoExists sp q = true := by
      simp only [indexSpoExists, decide_eq_true_eq]
      exact ⟨row, by simp [OrderSpace.keys, hexact.orders, hrow], hspo⟩
    rw [hnone] at hsome
    simp at hsome

theorem insertionsKeepUnion_spec {mappings : List (TermId × QueryTermId)}
    {inserted : List (QueryTermId × QueryTermId × QueryTermId)}
    (h : insertionsKeepUnion sp mappings inserted changes = true) :
    (∀ q, (q, true) ∈ changes → q.spo ∉ inserted ∧
      (usesNewTerm mappings q = true ∨ indexSpoExists sp q = false)) ∧
    ∀ q q', (q, true) ∈ changes → (q', true) ∈ changes → q.spo = q'.spo → q = q' := by
  induction changes generalizing inserted with
  | nil => simp
  | cons c changes ih =>
    obtain ⟨row, isLive⟩ := c
    unfold insertionsKeepUnion at h
    cases isLive with
    | false =>
      simp only [if_true] at h
      obtain ⟨hfresh, hdistinct⟩ := ih h
      constructor
      · intro q hq
        exact hfresh q (by simpa using hq)
      · intro q q' hq hq'
        exact hdistinct q q' (by simpa using hq) (by simpa using hq')
    | true =>
      simp only [Bool.true_eq_false, if_false] at h
      split at h
      · simp at h
      rename_i hnot
      split at h
      · simp at h
      rename_i hnew
      obtain ⟨hfresh, hdistinct⟩ := ih h
      have hhead : usesNewTerm mappings row = true ∨
          indexSpoExists sp row = false := by
        by_cases hterm : usesNewTerm mappings row = true
        · exact Or.inl hterm
        · refine Or.inr ?_
          by_contra hexists
          exact hnew ⟨by simpa using hterm, by simpa using hexists⟩
      -- the triples of the rest differ from the one just inserted
      have hrest : ∀ q, (q, true) ∈ changes → q.spo ≠ row.spo := by
        intro q hq heq
        exact (hfresh q hq).1 (heq ▸ mem_cons_self)
      constructor
      · intro q hq
        rcases mem_cons.mp hq with heq | hq
        · obtain rfl : q = row := congrArg fst heq
          exact ⟨hnot, hhead⟩
        · exact ⟨fun hmem => (hfresh q hq).1 (mem_cons_of_mem _ hmem),
            (hfresh q hq).2⟩
      · intro q q' hq hq' hspo
        rcases mem_cons.mp hq with heq | htail
        · obtain rfl : q = row := congrArg fst heq
          rcases mem_cons.mp hq' with heq' | htail'
          · exact (congrArg fst heq').symm
          · exact absurd hspo.symm (hrest q' htail')
        · rcases mem_cons.mp hq' with heq' | htail'
          · obtain rfl : q' = row := congrArg fst heq'
            exact absurd hspo (hrest q htail)
          · exact hdistinct q q' htail htail' hspo

/-- **The union check** lets the flag stand only when the insertions add new triples. -/
theorem unionPreserved_spec (hexact : Exact sp next rows) (hr : Resolved sp next r)
    (h : unionPreserved sp changes r.mappings = true) : NewTriples rows changes := by
  unfold unionPreserved at h
  split at h
  · next c =>
    constructor
    · intro q hq
      obtain rfl := mem_singleton.mp hq
      exact spo_fresh hexact hr (by simpa [transitionKeepsUnion] using h)
    · intro q q' hq hq' _
      rw [mem_singleton] at hq hq'
      exact congrArg fst (hq.trans hq'.symm)
  · obtain ⟨hfresh, hdistinct⟩ := insertionsKeepUnion_spec h
    exact ⟨fun q hq => spo_fresh hexact hr (hfresh q hq).2, hdistinct⟩

/-! ## The plan -/

variable {header : IndexHeader} {slot : IndexSlot}

/-- What a plan for changes consists of: the counters as planned, and the flag taken down when
the insertions do not keep it. -/
theorem planChanges_eq (h : planChanges slot sp header r changes = some plan) :
    plan.slot = slot ∧ plan.transitions = changes ∧ plan.mappings = r.mappings ∧
      plan.nextQueryId header = r.nextQueryId ∧
      (∀ header', plan.header = some header' → header'.activeSlot = header.activeSlot) ∧
      ∃ counters flag, plan.counters = counters ++ flag ∧
        (touchedCounters changes).mapM (planCounter sp changes) = some counters ∧
        ((flag = [] ∧ (unionFlag sp = some true → unionPreserved sp changes r.mappings = true)) ∨
          flag = [(.unionDuplicateFree, some 0)]) := by
  unfold planChanges at h
  simp only [bind, bind_eq_some_iff] at h
  obtain ⟨free, hfree, counters, hcounters, revisions, hrevisions, source, hsource, indexed,
    hindexed, h⟩ := h
  split at h
  · simp at h
  simp only [bind_eq_some_iff] at h
  obtain ⟨total, htotal, h⟩ := h
  split at h
  · simp at h
  cases h
  refine ⟨rfl, rfl, rfl, rfl, fun header' hheader => ?_, ?_⟩
  · rw [← some.inj hheader]
  by_cases hkeep : (free && !(!free || unionPreserved sp changes r.mappings)) = true
  · exact ⟨counters, [(.unionDuplicateFree, some 0)], by simp only [if_pos hkeep],
      hcounters, Or.inr rfl⟩
  · refine ⟨counters, [], by simp only [if_neg hkeep, append_nil], hcounters,
      Or.inl ⟨rfl, fun htrue => ?_⟩⟩
    rw [hfree] at htrue
    cases htrue
    simpa using hkeep

/-- **A plan for effective changes, staged, leaves an exact slot** for the changed rows. -/
theorem planChanges_exact (hexact : Exact sp next rows) (hr : Resolved sp next r)
    (heff : Effective rows changes) (hchanges : ∀ c ∈ changes, ∃ τ, ChangeOf sp rows r τ c)
    (h : planChanges slot sp header r changes = some plan) :
    Exact (sp.stagePlan plan) (plan.nextQueryId header) (Toggle.apply rows changes) := by
  obtain ⟨_, htransitions, hmappings, hnext, _, counters, flag, hplan, hcounters, hflag⟩ :=
    planChanges_eq h
  rw [hnext]
  refine ⟨numbered_stagePlan hexact.toNumbered hr hmappings heff hchanges, ?_, ?_, ?_⟩
  · intro o
    rw [stagePlan_orders (hexact.orders o), htransitions]
  · intro k hk
    rw [stagePlan_counters, hplan, map_append, updates, foldl_append, ← updates, ← updates]
    rcases hflag with ⟨rfl, _⟩ | rfl
    · exact updates_planned hexact heff hcounters hk
    · rw [map_cons, map_nil, updates_cons, updates_nil, Function.update_of_ne hk]
      exact updates_planned hexact heff hcounters hk
  · intro hset
    rw [stagePlan_counters, hplan, map_append, updates, foldl_append, ← updates, ← updates] at hset
    rcases hflag with ⟨rfl, hkeep⟩ | rfl
    · -- the flag is not written, so it was set before and the check passed
      rw [map_nil, updates_nil, updates_planned_union hexact heff hcounters] at hset
      have hflag : unionFlag sp = some true := by simp [unionFlag, hset]
      exact (unionPreserved_spec hexact hr (hkeep hflag)).unionFree heff (hexact.union hset)
    · -- the flag is taken down
      simp [updates, storedCounter] at hset

section Update

variable {slots : IndexSlot → IndexSpaces} {header : IndexHeader} {slot : IndexSlot}
  {transitions : List NetQuadTransition} {plan : IndexUpdatePlan}

theorem planIndexUpdate_slot (hplan : planIndexUpdate slots header transitions = some plan) :
    IndexSlot.decode header.activeSlot = some plan.slot ∧
      ∀ header', plan.header = some header' → header'.activeSlot = header.activeSlot := by
  unfold planIndexUpdate at hplan
  simp only [bind, bind_eq_some_iff] at hplan
  obtain ⟨slot, hslot, hplan⟩ := hplan
  split at hplan
  · simp at hplan
  simp only [bind_eq_some_iff] at hplan
  obtain ⟨⟨r, changes⟩, _, hplan⟩ := hplan
  simp only at hplan
  split at hplan
  · cases hplan
    exact ⟨hslot, by simp⟩
  · obtain ⟨hplanSlot, _, _, _, hactive, _⟩ := planChanges_eq hplan
    exact ⟨hplanSlot ▸ hslot, hactive⟩

theorem planIndexUpdate_spec (hslot : IndexSlot.decode header.activeSlot = some slot)
    (hexact : Exact (slots slot) header.nextQueryId rows)
    (hcons : Consistent (slots slot) rows transitions)
    (hplan : planIndexUpdate slots header transitions = some plan) :
    plan.slot = slot ∧ ∃ r, Resolved (slots slot) header.nextQueryId r ∧
      plan.mappings = r.mappings ∧
      List.Forall₂ (ChangeOf (slots slot) rows r) transitions plan.transitions ∧
      Exact ((slots slot).stagePlan plan) (plan.nextQueryId header)
        (Toggle.apply rows plan.transitions) := by
  unfold planIndexUpdate at hplan
  simp only [bind, hslot, bind_some] at hplan
  split at hplan
  · simp at hplan
  simp only [Option.bind_eq_some_iff, Prod.exists] at hplan
  obtain ⟨r, changes, hfold, hplan⟩ := hplan
  obtain ⟨hr, _, changes', hchanges', hforall⟩ :=
    planTransitions_spec hexact hcons Resolved.start hfold
  obtain rfl : changes = changes' := by simpa using hchanges'
  split at hplan
  · next hnil =>
    -- no change means no transition, and so no new term either
    subst hnil
    obtain rfl : transitions = [] := forall₂_nil_right_iff.mp hforall
    obtain rfl : _ = r := congrArg fst (some.inj hfold)
    cases hplan
    exact ⟨rfl, _, Resolved.start, rfl, List.Forall₂.nil, hexact⟩
  · obtain ⟨hplanSlot, htransitions, hmappings, _⟩ := planChanges_eq hplan
    have hchanges : ∀ c ∈ changes, ∃ τ, ChangeOf (slots slot) rows r τ c := by
      intro c hc
      obtain ⟨τ, _, hchange⟩ := exists_transition hforall hc
      exact ⟨τ, hchange⟩
    have heff := effective_changes hexact.toNumbered hr hcons.nodup hforall
    refine ⟨hplanSlot, r, hr, hmappings, htransitions ▸ hforall, ?_⟩
    rw [htransitions]
    exact planChanges_exact hexact hr heff hchanges hplan

/-- **Incremental maintenance keeps the index exact.** A plan for transitions that fit the
active slot is for that slot. Staged, it leaves all the index facts true of the new rows: those
of the live transitions, and the old ones that no transition is about. Old mappings stay, and
every term of a transition has one. -/
theorem planIndexUpdate_exact (hslot : IndexSlot.decode header.activeSlot = some slot)
    (hexact : Exact (slots slot) header.nextQueryId rows)
    (hcons : Consistent (slots slot) rows transitions)
    (hplan : planIndexUpdate slots header transitions = some plan) :
    plan.slot = slot ∧
    (∀ t i, (slots slot).termToQuery t = .value i →
      ((slots slot).stagePlan plan).termToQuery t = .value i) ∧
    (∀ τ ∈ transitions, ∃ q, Denotes ((slots slot).stagePlan plan) τ.quad q) ∧
    ∃ rows', Exact ((slots slot).stagePlan plan) (plan.nextQueryId header) rows' ∧
      ∀ q, q ∈ rows' ↔
        (∃ τ ∈ transitions, τ.isLive = true ∧ Denotes ((slots slot).stagePlan plan) τ.quad q) ∨
        (q ∈ rows ∧ ∀ τ ∈ transitions, ¬ Denotes ((slots slot).stagePlan plan) τ.quad q) := by
  obtain ⟨hplanSlot, r, hr, hmappings, hforall, hexact'⟩ :=
    planIndexUpdate_spec hslot hexact hcons hplan
  have hdenotes := stagePlan_denotes_iff hr hmappings
  have heff := effective_changes hexact.toNumbered hr hcons.nodup hforall
  refine ⟨hplanSlot, ?_, ?_, _, hexact', ?_⟩
  · intro t i ht
    exact (stagePlan_termToQuery_iff hr hmappings t i).mpr (Or.inl ht)
  · intro τ hτ
    obtain ⟨c, _, hc⟩ := exists_change hforall hτ
    exact ⟨c.1, (hdenotes _ _).mpr hc.maps⟩
  · intro q
    rw [mem_apply heff.nodup]
    constructor
    · rintro (hnew | ⟨hold, hkept⟩)
      · obtain ⟨τ, hτ, hc⟩ := exists_transition hforall hnew
        exact Or.inl ⟨τ, hτ, hc.live.symm, (hdenotes _ _).mpr hc.maps⟩
      · refine Or.inr ⟨hold, fun τ hτ hden => hkept ?_⟩
        -- a transition about an old row takes it out
        obtain ⟨c, hmem, hc⟩ := exists_change hforall hτ
        have hcq : c.1 = q := hr.mapsQuad_unique hc.maps ((hdenotes _ _).mp hden)
        have hdead : c.2 = false := hc.differs.mp (hcq ▸ hold)
        rwa [← hcq, ← hdead]
    · rintro (⟨τ, hτ, hlive, hden⟩ | ⟨hold, hnone⟩)
      · obtain ⟨c, hmem, hc⟩ := exists_change hforall hτ
        have hcq : c.1 = q := hr.mapsQuad_unique hc.maps ((hdenotes _ _).mp hden)
        refine Or.inl ?_
        rw [← hcq, ← hlive, ← hc.live]
        exact hmem
      · refine Or.inr ⟨hold, fun hdead => ?_⟩
        obtain ⟨τ, hτ, hc⟩ := exists_transition hforall hdead
        exact hnone τ hτ ((hdenotes _ _).mpr hc.maps)

end Update

/-! ### A slot with one row -/

/-- The slot of one quad whose four terms are numbered as they are. -/
def oneRow : IndexSpaces where
  orders _ := ⟨{⟨0, 1, 2, 3⟩}, ∅⟩
  termToQuery t := if t.toNat < 4 then .value t.toNat else .missing
  queryToTerm i := if i < 4 then .value (BitVec.ofNat 128 i) else .missing
  counters k := if k = .unionDuplicateFree then .value 1
    else expectedCounter {⟨0, 1, 2, 3⟩} k
  revisions _ := .missing

theorem oneRow_termToQuery {t : TermId} {i : QueryTermId} :
    oneRow.termToQuery t = .value i ↔ t.toNat < 4 ∧ t.toNat = i := by
  simp only [oneRow]
  by_cases h : t.toNat < 4
  · simp [h]
  · simp [h]

theorem oneRow_exact : Exact oneRow 4 {⟨0, 1, 2, 3⟩} where
  orders _ := rfl
  counters k hk := by simp [oneRow, hk]
  inverse t i := by
    rw [oneRow_termToQuery]
    simp only [oneRow]
    by_cases hi : i < 4
    · have hsmall : (BitVec.ofNat 128 i).toNat = i := by
        rw [BitVec.toNat_ofNat]
        exact Nat.mod_eq_of_lt (Nat.lt_trans hi (by decide))
      simp only [if_pos hi, value.injEq, ← BitVec.toNat_inj, hsmall]
      constructor
      · rintro ⟨_, rfl⟩
        rfl
      · intro heq
        exact ⟨heq ▸ hi, heq.symm⟩
    · simp only [if_neg hi, reduceCtorEq, iff_false]
      rintro ⟨hlt, rfl⟩
      exact hi hlt
  below t i h := by
    obtain ⟨hlt, rfl⟩ := oneRow_termToQuery.mp h
    exact hlt
  rows_below := by decide
  union _ := by decide

def oneRowHeader : IndexHeader := ⟨0, .ready, 1, 1, 1, 1, 0, 1, 4⟩

/-- The row leaves the index and another one, with a new object, enters. -/
def oneRowMoves : List NetQuadTransition :=
  [⟨⟨0, 1, 2, 3⟩, true, false⟩, ⟨⟨0, 1, 2, 9⟩, false, true⟩]

theorem oneRowMoves_consistent : Consistent oneRow {⟨0, 1, 2, 3⟩} oneRowMoves where
  nodup := by decide
  flips := by decide
  was := by
    intro τ hτ
    simp only [oneRowMoves, mem_cons, not_mem_nil, or_false] at hτ
    rcases hτ with rfl | rfl
    · simp only [true_iff]
      exact ⟨⟨0, 1, 2, 3⟩, by decide, by decide, by decide, by decide, by decide⟩
    · simp only [Bool.false_eq_true, false_iff]
      rintro ⟨q, _, hden⟩
      have hobject := (oneRow_termToQuery.mp hden.object).1
      exact absurd hobject (by decide)

theorem planIndexUpdate_exact_move :
    ∃ plan, planIndexUpdate (fun _ => oneRow) oneRowHeader oneRowMoves = some plan ∧
      plan.slot = .primary ∧ ∃ rows', Exact (oneRow.stagePlan plan) 5 rows' ∧
        ∀ q, q ∈ rows' ↔
          (∃ τ ∈ oneRowMoves, τ.isLive = true ∧ Denotes (oneRow.stagePlan plan) τ.quad q) ∨
          (q ∈ ({⟨0, 1, 2, 3⟩} : Finset QueryQuad) ∧
            ∀ τ ∈ oneRowMoves, ¬ Denotes (oneRow.stagePlan plan) τ.quad q) := by
  have hsome : (planIndexUpdate (fun _ => oneRow) oneRowHeader oneRowMoves).map
      (fun plan => plan.nextQueryId oneRowHeader) = some 5 := by decide +kernel
  obtain ⟨plan, hplan, hnext⟩ := map_eq_some_iff.mp hsome
  have h := planIndexUpdate_exact rfl oneRow_exact oneRowMoves_consistent hplan
  exact ⟨plan, hplan, h.1, hnext ▸ h.2.2.2⟩

end Craqle
