import Craqle.Index.Build

/-! # What the parts of a rebuild do

Clearing all keyspaces leaves an empty slot. Chunk after chunk the slot stands for the source
rows built so far (`buildIndexChunk_spec`); with its total and its flag it indexes the scanned
source (`indexes_coverage`), and each replayed delta changes the set it indexes
(`replayQueryDelta_cases`).
-/

namespace Craqle

open Updates List Function Toggle Option OrderSpace

variable {sp sp' seen : IndexSpaces} {next : QueryTermId} {rows : Finset QueryQuad}
  {r r' : TermResolver} {changes : List (QueryQuad × Bool)}

/-! ## Clearing -/

theorem without_missing {α : Type} (part : Stored α) : Stored.without .missing part = .missing := by
  cases part with
  | missing => rfl
  | malformed => rfl
  | value a => rfl

theorem without_eq_missing {α : Type} {current part : Stored α}
    (h : part = .missing → current = .missing) : current.without part = .missing := by
  cases part with
  | missing => exact h rfl
  | malformed => rfl
  | value a => rfl

theorem order_without_of_subset {current part : OrderSpace} (h : current.keys ⊆ part.keys) :
    current.without part = ⟨∅, ∅⟩ := by
  obtain ⟨hrows, hspoiled⟩ : current.rows ⊆ part.keys ∧ current.spoiled ⊆ part.keys :=
    Finset.union_subset_iff.mp h
  unfold without
  rw [Finset.sdiff_eq_empty_iff_subset.mpr hrows, Finset.sdiff_eq_empty_iff_subset.mpr hspoiled]

theorem order_without_keys (current part : OrderSpace) :
    (current.without part).keys ⊆ current.keys := by
  unfold without OrderSpace.keys
  exact Finset.union_subset_union Finset.sdiff_subset Finset.sdiff_subset

variable {space : SlotSpace}

theorem emptyIn_clearSpace {part : IndexSpaces} (cleared : SlotSpace)
    (h : sp.EmptyIn space) : (sp.clearSpace part cleared).EmptyIn space := by
  cases space with
  | order o =>
    cases cleared with
    | order o' =>
      by_cases heq : o = o'
      · subst heq
        simp only [IndexSpaces.EmptyIn] at h
        simp [IndexSpaces.EmptyIn, IndexSpaces.clearSpace, h, without]
      · simpa [IndexSpaces.EmptyIn, IndexSpaces.clearSpace, update_of_ne heq] using h
    | termToQuery | queryToTerm | metadata => exact h
  | termToQuery =>
    cases cleared with
    | order o' | queryToTerm | metadata => exact h
    | termToQuery =>
      intro t
      show (sp.termToQuery t).without _ = _
      rw [h t, without_missing]
  | queryToTerm =>
    cases cleared with
    | order o' | termToQuery | metadata => exact h
    | queryToTerm =>
      intro i
      show (sp.queryToTerm i).without _ = _
      rw [h i, without_missing]
  | metadata =>
    cases cleared with
    | order o' | termToQuery | queryToTerm => exact h
    | metadata =>
      refine ⟨fun k => ?_, fun p => ?_⟩
      · show (sp.counters k).without _ = _
        rw [h.1 k, without_missing]
      · show (sp.revisions p).without _ = _
        rw [h.2 p, without_missing]

/-- Removing all the keys that are there leaves none. -/
theorem emptyIn_clearSpace_self (h : sp.KeysIn seen space) :
    (sp.clearSpace seen space).EmptyIn space := by
  cases space with
  | order o =>
    show update sp.orders o _ o = _
    rw [update_self]
    exact order_without_of_subset h
  | termToQuery => exact fun t => without_eq_missing (h t)
  | queryToTerm => exact fun i => without_eq_missing (h i)
  | metadata => exact ⟨fun k => without_eq_missing (h.1 k), fun p => without_eq_missing (h.2 p)⟩

theorem keysIn_self (space : SlotSpace) : sp.KeysIn sp space := by
  cases space with
  | order o => exact subset_rfl
  | termToQuery | queryToTerm => exact fun _ h => h
  | metadata => exact ⟨fun _ h => h, fun _ h => h⟩

/-- Removing keys adds none. -/
theorem keysIn_clearSpace {part : IndexSpaces} (h : sp.KeysIn seen space) :
    (sp.clearSpace part space).KeysIn seen space := by
  cases space with
  | order o =>
    show (update sp.orders o _ o).keys ⊆ _
    rw [update_self]
    exact (order_without_keys _ _).trans h
  | termToQuery =>
    intro t ht
    show (sp.termToQuery t).without _ = _
    rw [h t ht, without_missing]
  | queryToTerm =>
    intro i hi
    show (sp.queryToTerm i).without _ = _
    rw [h i hi, without_missing]
  | metadata =>
    refine ⟨fun k hk => ?_, fun p hp => ?_⟩
    · show (sp.counters k).without _ = _
      rw [h.1 k hk, without_missing]
    · show (sp.revisions p).without _ = _
      rw [h.2 p hp, without_missing]

/-! ## Scanned slots -/

/-- What a counter holds while rows are scanned: nothing when it counts none. -/
def scannedCounter (rows : Finset QueryQuad) (k : IndexCounterKey) : Stored Nat :=
  let n := (rows.filter fun q => k.matchesQuad q).card
  if n ≠ 0 then .value n else .missing

/-- The index facts of a slot that is being scanned into: the total is a counter like the
others, and there is no flag yet. -/
structure Scanned (sp : IndexSpaces) (next : QueryTermId) (rows : Finset QueryQuad) : Prop
    extends Numbered sp next rows where
  orders : ∀ o, sp.orders o = ⟨rows, ∅⟩
  counters : ∀ k, k ≠ .unionDuplicateFree → sp.counters k = scannedCounter rows k

def ScannedAs (sp : IndexSpaces) (next : QueryTermId) (source : Finset EncodedQuad)
    (count : Nat) : Prop :=
  ∃ rows, Scanned sp next rows ∧ Represents sp rows source ∧ rows.card = count

/-- A scan starts from a cleared slot. -/
theorem scannedAs_of_empty (h : ∀ space, sp.EmptyIn space) : ScannedAs sp 0 ∅ 0 := by
  have hterm : ∀ t, sp.termToQuery t = .missing := h .termToQuery
  have hquery : ∀ i, sp.queryToTerm i = .missing := h .queryToTerm
  refine ⟨∅, ⟨⟨?_, ?_, ?_⟩, ?_, ?_⟩, ⟨?_, ?_⟩, rfl⟩
  · intro t i
    simp [hterm, hquery]
  · intro t i ht
    simp [hterm] at ht
  · intro q hq
    simp at hq
  · exact fun o => h (.order o)
  · intro k _
    simp [(h .metadata).1 k, scannedCounter]
  · intro e
    simp
  · intro q hq
    simp at hq

/-! ## Chunks -/

theorem rebuildQueryId_resolves : Resolves sp next (rebuildQueryId sp) := by
  refine resolves_of_cases fun t r i r' h => ?_
  unfold rebuildQueryId at h
  split at h
  · simp_all
  split at h
  · simp at h
  · split_ifs at h
    grind
  · split_ifs at h
    grind

/-- A source row as a transition. -/
def scanTransition (e : EncodedQuad) : NetQuadTransition := ⟨e, false, true⟩

variable {quads : List EncodedQuad}

/-- **The loop over a chunk** lists the insertion of one row for each quad. -/
theorem chunkRows_spec (hnum : Numbered sp next rows)
    (hnew : ∀ e ∈ quads, ¬ ∃ q ∈ rows, Denotes sp e q) (h : Resolved sp next r)
    {out out' : List (QueryQuad × Bool)}
    (hfold : quads.foldlM (chunkRow sp) (r, out) = some (r', out')) :
    Resolved sp next r' ∧ Extends r r' ∧ ∃ changes, out' = out ++ changes ∧
      List.Forall₂ (ChangeOf sp rows r') (quads.map scanTransition) changes := by
  induction quads generalizing r out with
  | nil =>
    cases hfold
    exact ⟨h, fun _ hm => hm, [], by simp, List.Forall₂.nil⟩
  | cons e quads ih =>
    rw [foldlM_cons] at hfold
    obtain ⟨⟨r₁, out₁⟩, hhead, htail⟩ := bind_eq_some_iff.mp hfold
    unfold chunkRow at hhead
    simp only [bind, bind_eq_some_iff, Prod.exists] at hhead
    obtain ⟨q, r₂, hq, heq⟩ := hhead
    cases heq
    obtain ⟨h₁, x₁, m₁⟩ := resolveTerms_spec rebuildQueryId_resolves h hq
    obtain ⟨h₂, x₂, changes, rfl, hchanges⟩ :=
      ih (fun e' he' => hnew e' (mem_cons_of_mem _ he')) h₁ htail
    refine ⟨h₂, fun m hm => x₂ m (x₁ m hm), (q, true) :: changes, by simp, ?_⟩
    refine List.Forall₂.cons ⟨rfl, x₂.mapsQuad m₁, ?_⟩ hchanges
    -- the quad is new, so its row is not there
    simp only [Bool.true_eq_false, iff_false]
    intro hmem
    exact hnew e mem_cons_self ⟨q, hmem, h₁.denotes_of_mem hnum hmem m₁⟩

theorem chunkCounter_spec (hscan : Scanned sp next rows) (heff : Toggle.Effective rows changes)
    (hinserts : ∀ c ∈ changes, c.2 = true) {k : IndexCounterKey} (hk : k ≠ .unionDuplicateFree)
    (htouched : k ∈ touchedCounters changes) {update : IndexCounterKey × Option Nat}
    (h : chunkCounter sp changes k = some update) :
    update.1 = k ∧ storedCounter update.2 = scannedCounter (Toggle.apply rows changes) k := by
  unfold chunkCounter at h
  rw [hscan.counters k hk] at h
  simp only [bind, bind_eq_some_iff] at h
  obtain ⟨current, hcurrent, h⟩ := h
  have hcard : current = (rows.filter fun q => k.matchesQuad q).card := by
    unfold scannedCounter at hcurrent
    by_cases hzero : (rows.filter fun q => k.matchesQuad q).card = 0
    · simp only [hzero, ne_eq, not_true_eq_false, if_false, countOrZero] at hcurrent
      rw [hzero]
      exact (some.inj hcurrent).symm
    · simp only [ne_eq, hzero, not_false_eq_true, if_true, countOrZero] at hcurrent
      exact (some.inj hcurrent).symm
  split at h
  · cases h
    refine ⟨rfl, ?_⟩
    have hsum := card_filter_apply k.matchesQuad heff
    rw [sum_weight_of_inserts k.matchesQuad hinserts] at hsum
    have hpos : 0 < (changes.filter fun c => k.matchesQuad c.1).length := by
      obtain ⟨c, hc, hmatch⟩ := mem_touchedCounters.mp htouched
      exact length_pos_of_mem (mem_filter.mpr ⟨hc, hmatch⟩)
    have hnew : ((apply rows changes).filter fun q => k.matchesQuad q).card =
        current + (changes.filter fun c => k.matchesQuad c.1).length := by omega
    simp only [scannedCounter, hnew, storedCounter]
    rw [if_pos (by omega)]
  · simp at h

variable {done : Finset EncodedQuad}

theorem netOn_scan (hnodup : quads.Nodup)
    (hnew : ∀ e ∈ quads, e ∉ done) : NetOn done (quads.map scanTransition) where
  effective := by
    refine ⟨?_, fun c hc => ?_⟩
    · simpa [changesOf, scanTransition, comp_def] using hnodup
    · obtain ⟨τ, hτ, hquad, hlive⟩ := mem_changesOf.mp (show (c.1, c.2) ∈ changesOf _ from hc)
      obtain ⟨e, he, rfl⟩ := mem_map.mp hτ
      rw [← hquad, ← hlive]
      simp [scanTransition, hnew e he]
  flips := by
    intro τ hτ
    obtain ⟨e, _, rfl⟩ := mem_map.mp hτ
    rfl

theorem apply_scan (hnodup : quads.Nodup) :
    Toggle.apply done (changesOf (quads.map scanTransition)) = done ∪ quads.toFinset := by
  apply Finset.ext
  intro e
  have hkeys : ((changesOf (quads.map scanTransition)).map Prod.fst).Nodup := by
    simpa [changesOf, scanTransition, comp_def] using hnodup
  rw [mem_apply hkeys]
  simp [mem_changesOf, scanTransition, or_comm]

/-- **A chunk** adds its quads to those that the slot stands for. -/
theorem buildIndexChunk_spec {count : Nat}
    (hscan : ScannedAs sp next done count) (hnodup : quads.Nodup)
    (hnew : ∀ e ∈ quads, e ∉ done) {slot : IndexSlot} {plan : IndexUpdatePlan}
    {next' : QueryTermId} (h : buildIndexChunk slot sp quads next = some (plan, next')) :
    plan.slot = slot ∧
      ScannedAs (sp.stagePlan plan) next' (done ∪ quads.toFinset) (count + quads.length) := by
  obtain ⟨rows, hscan, hrep, hcard⟩ := hscan
  unfold buildIndexChunk at h
  simp only [bind, bind_eq_some_iff, Prod.exists] at h
  obtain ⟨r, changes, hfold, counters, hcounters, revisions, _, heq⟩ := h
  cases heq
  have hnone : ∀ e ∈ quads, ¬ ∃ q ∈ rows, Denotes sp e q := by
    intro e he
    rw [← hrep.mem_iff]
    exact hnew e he
  obtain ⟨hr, _, changes', hchanges', hforall⟩ := chunkRows_spec hscan.toNumbered hnone
    (Resolved.start.allowAllocate true) hfold
  obtain rfl : changes = changes' := by simpa using hchanges'
  have hnet := netOn_scan hnodup hnew
  have heff := effective_changes hscan.toNumbered hr hnet.nodup hforall
  have hinserts : ∀ c ∈ changes, c.2 = true := by
    intro c hc
    obtain ⟨τ, hτ, hchange⟩ := exists_transition hforall hc
    obtain ⟨e, _, rfl⟩ := mem_map.mp hτ
    exact hchange.live
  refine ⟨rfl, apply rows changes, ⟨?_, ?_, ?_⟩, ?_, ?_⟩
  · refine numbered_stagePlan hscan.toNumbered hr rfl heff fun c hc => ?_
    obtain ⟨τ, _, hchange⟩ := exists_transition hforall hc
    exact ⟨τ, hchange⟩
  · intro o
    exact stagePlan_orders (hscan.orders o) _
  · intro k hk
    rw [stagePlan_counters]
    refine updates_mapM (nodup_dedup _) hcounters ?_ ?_ ?_
    · intro k' hk' u hu
      have hne : k' ≠ .unionDuplicateFree := fun heq => union_notMem_touchedCounters (heq ▸ hk')
      exact (chunkCounter_spec hscan heff hinserts hne hk' hu).1
    · intro u hmem hu
      exact (chunkCounter_spec hscan heff hinserts hk hmem hu).2
    · intro hout
      rw [hscan.counters k hk]
      simp [scannedCounter, card_untouched heff hout]
  · rw [← apply_scan hnodup]
    exact represents_stagePlan hscan.toNumbered hr rfl hforall hrep hnet
  · have hsum := card_filter_apply (fun _ => true) heff
    rw [sum_weight_of_inserts _ hinserts] at hsum
    have hlength := hforall.length_eq
    simp only [Finset.filter_true, filter_true, length_map] at hsum hlength
    omega

/-! ## The flag and the total -/

/-- The triple of a key, in the order of the keys. -/
def spoPart (key : SpogKey) : Nat ×ₗ Nat ×ₗ Nat :=
  toLex ((decodeSpogKey key).subject, toLex ((decodeSpogKey key).predicate,
    (decodeSpogKey key).object))

theorem spoPart_le {key key' : SpogKey} (h : key ≤ key') : spoPart key ≤ spoPart key' := by
  simp only [Prod.Lex.le_iff] at h
  simp only [spoPart, decodeSpogKey, Prod.Lex.le_iff, ofLex_toLex]
  rcases h with hs | ⟨hs, hp | ⟨hp, ho | ⟨ho, _⟩⟩⟩
  · exact Or.inl hs
  · exact Or.inr ⟨hs, Or.inl hp⟩
  · exact Or.inr ⟨hs, Or.inr ⟨hp, le_of_lt ho⟩⟩
  · exact Or.inr ⟨hs, Or.inr ⟨hp, le_of_eq ho⟩⟩

theorem spoPart_eq_iff {key key' : SpogKey} :
    spoPart key = spoPart key' ↔ (decodeSpogKey key).spo = (decodeSpogKey key').spo := by
  simp [spoPart, Quad.spo]

/-- In sorted keys a triple that occurs twice follows itself. -/
theorem spogUnique_pairwise {first : SpogKey} {keys : List SpogKey}
    (hsorted : (first :: keys).Pairwise (· ≤ ·))
    (h : spogUnique (some (decodeSpogKey first).spo) keys = true) :
    (first :: keys).Pairwise fun a b => (decodeSpogKey a).spo ≠ (decodeSpogKey b).spo := by
  induction keys generalizing first with
  | nil => simp
  | cons key keys ih =>
    simp only [spogUnique] at h
    split at h
    · simp at h
    rename_i hne
    have hne : (decodeSpogKey first).spo ≠ (decodeSpogKey key).spo := by simpa using hne
    have hrest := (pairwise_cons.mp hsorted).2
    refine pairwise_cons.mpr ⟨fun b hb heq => ?_, ih hrest h⟩
    have hfirst : spoPart first ≤ spoPart key :=
      spoPart_le ((pairwise_cons.mp hsorted).1 key mem_cons_self)
    have hkey : spoPart key ≤ spoPart b := by
      rcases mem_cons.mp hb with rfl | hb
      · exact le_rfl
      · exact spoPart_le ((pairwise_cons.mp hrest).1 b hb)
    rw [← spoPart_eq_iff.mpr heq] at hkey
    exact hne (spoPart_eq_iff.mp (le_antisymm hfirst hkey))

theorem spogUnique_injective {keys : List SpogKey} (hsorted : keys.Pairwise (· ≤ ·))
    (h : spogUnique none keys = true) {a b : SpogKey} (ha : a ∈ keys) (hb : b ∈ keys)
    (hspo : (decodeSpogKey a).spo = (decodeSpogKey b).spo) : a = b := by
  cases keys with
  | nil => simp at ha
  | cons first keys =>
    simp only [spogUnique, reduceCtorEq, if_false] at h
    have : Std.Symm fun a b : SpogKey => (decodeSpogKey a).spo ≠ (decodeSpogKey b).spo :=
      ⟨fun _ _ hxy => hxy.symm⟩
    by_contra hne
    exact (spogUnique_pairwise hsorted h).forall ha hb hne hspo

theorem unionFree_of_unique (horder : sp.orders .spog = ⟨rows, ∅⟩)
    (h : indexUnionUnique sp = true) : UnionFree rows := by
  intro q hq q' hq' hspo
  have hmem : ∀ q ∈ rows, spogKey q ∈ ((sp.orders .spog).keys.image spogKey).sort (· ≤ ·) := by
    intro q hq
    rw [Finset.mem_sort, horder]
    exact Finset.mem_image_of_mem _ (by simp [OrderSpace.keys, hq])
  have hkey : spogKey q = spogKey q' :=
    spogUnique_injective (Finset.pairwise_sort _ _) h (hmem q hq) (hmem q' hq') hspo
  exact congrArg decodeSpogKey hkey

/-- **A scanned slot with its total and its flag** indexes the scanned quads. -/
theorem indexes_coverage {source : Finset EncodedQuad} {count : Nat}
    (h : ScannedAs sp next source count) : Indexes (sp.coverage count) next source := by
  obtain ⟨rows, hscan, hrep, hcard⟩ := h
  refine ⟨rows, ⟨⟨hscan.inverse, hscan.below, hscan.rows_below⟩, hscan.orders, ?_, ?_⟩,
    ⟨fun e => ?_, fun q hq => ?_⟩⟩
  · intro k hk
    show update (update sp.counters .total (.value count)) _ _ k = _
    rw [update_of_ne hk]
    by_cases htotal : k = .total
    · subst htotal
      simp [expectedCounter, IndexCounterKey.matchesQuad, hcard]
    · rw [update_of_ne htotal, hscan.counters k hk]
      simp [scannedCounter, expectedCounter, htotal]
  · intro hset
    have hflag : (indexUnionUnique sp).toNat = 1 := by
      simpa [IndexSpaces.coverage] using hset
    exact unionFree_of_unique (hscan.orders .spog) (by simpa using hflag)
  · rw [hrep.mem_iff]
    exact exists_congr fun q => and_congr_right fun _ =>
      ⟨fun h => ⟨h.graph, h.subject, h.predicate, h.object⟩,
        fun h => ⟨h.graph, h.subject, h.predicate, h.object⟩⟩
  · obtain ⟨e, h⟩ := hrep.denoted q hq
    exact ⟨e, h.graph, h.subject, h.predicate, h.object⟩

/-! ## Replay -/

section Replay

variable {db db' : IndexDb} {build build' : QueryBuildRecord}
  {candidate candidate' : IndexHeader} {target : Nat}

inductive Replayed (db : IndexDb) (current : QueryBuildRecord) (candidate : IndexHeader)
    (target : Nat) : IndexDb → QueryBuildRecord → IndexHeader → Prop
  | delta {transitions : List NetQuadTransition} {plan : IndexUpdatePlan}
      (hlt : current.replayCursor < target)
      (hdelta : db.deltas (current.replayCursor + 1) = some transitions)
      (hplan : planIndexUpdate db.slots candidate transitions = some plan) :
      Replayed db current candidate target
        { db.writeSlot plan.slot ((db.slots plan.slot).stagePlan plan) with
          build := some { current with
            replayCursor := current.replayCursor + 1
            phase := .replay
            target := some target } }
        { current with
          replayCursor := current.replayCursor + 1
          phase := .replay
          target := some target }
        ((plan.header.map fun h => { h with state := .building }).getD candidate)
  | done (hle : target ≤ current.replayCursor) :
      Replayed db current candidate target db current candidate

theorem replayQueryDelta_cases
    (h : replayQueryDelta db build candidate target = some (db', build', candidate')) :
    ∃ current, db.build = some current ∧ Replayed db current candidate target db' build'
      candidate' := by
  unfold replayQueryDelta at h
  simp only [bind, bind_eq_some_iff] at h
  obtain ⟨current, hcurrent, h⟩ := h
  refine ⟨current, hcurrent, ?_⟩
  split at h
  · simp at h
  split at h
  · next hlt =>
    split at h
    · simp at h
    · simp only [bind_eq_some_iff] at h
      obtain ⟨transitions, hdelta, plan, hplan, heq⟩ := h
      obtain ⟨rfl, rfl, rfl⟩ : _ ∧ _ ∧ _ := by
        simpa only [some.injEq, Prod.mk.injEq] using heq
      exact Replayed.delta hlt hdelta hplan
  · next hle =>
    obtain ⟨rfl, rfl, rfl⟩ : _ ∧ _ ∧ _ := by
      simpa only [some.injEq, Prod.mk.injEq] using h
    exact Replayed.done (Nat.not_lt.mp hle)

end Replay

/-- **A replayed delta** changes the set that the candidate's slot indexes. -/
theorem replay_indexes {slots : IndexSlot → IndexSpaces} {candidate : IndexHeader}
    {slot : IndexSlot} {source : Finset EncodedQuad} {transitions : List NetQuadTransition}
    {plan : IndexUpdatePlan} (hslot : IndexSlot.decode candidate.activeSlot = some slot)
    (hindex : Indexes (slots slot) candidate.nextQueryId source) (hnet : NetOn source transitions)
    (hplan : planIndexUpdate slots candidate transitions = some plan) :
    plan.slot = slot ∧
      ((plan.header.map fun h => { h with state := .building }).getD candidate).activeSlot =
        candidate.activeSlot ∧
      Indexes ((slots slot).stagePlan plan)
        ((plan.header.map fun h => { h with state := .building }).getD candidate).nextQueryId
        (Toggle.apply source (changesOf transitions)) := by
  obtain ⟨hplanSlot, hindex'⟩ := planIndexUpdate_indexes hslot hindex hnet hplan
  have hactive := (planIndexUpdate_slot hplan).2
  refine ⟨hplanSlot, ?_, ?_⟩
  · cases hheader : plan.header with
    | none => rfl
    | some header => exact hactive header hheader
  · unfold IndexUpdatePlan.nextQueryId at hindex'
    cases hheader : plan.header with
    | none | some header => simpa [hheader] using hindex'

end Craqle
