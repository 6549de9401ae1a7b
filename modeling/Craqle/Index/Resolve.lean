import Craqle.Index.Plan

/-! # What planning resolves

The loop of `plan_index_update` over the transitions. A resolver keeps the stored mappings and
adds new ones for new terms (`Maps`); together they stay one-to-one (`Resolved`). On an exact
slot and for transitions that fit it, every transition ends up in the plan as the change of one
row (`ChangeOf`), and the changes are effective on the rows.
-/

namespace Craqle

open TermResolver List

variable {sp : IndexSpaces} {next : QueryTermId} {rows : Finset QueryQuad} {r r' : TermResolver}

/-- A term has an identifier: a stored one or a new one. -/
def Maps (sp : IndexSpaces) (r : TermResolver) (t : TermId) (i : QueryTermId) : Prop :=
  sp.termToQuery t = .value i ∨ (t, i) ∈ r.mappings

/-- The new mappings are of terms and identifiers that are stored nowhere, each used once. -/
structure Resolved (sp : IndexSpaces) (next : QueryTermId) (r : TermResolver) : Prop where
  next_le : next ≤ r.nextQueryId
  fresh : ∀ m ∈ r.mappings, sp.termToQuery m.1 = .missing ∧ sp.queryToTerm m.2 = .missing ∧
    next ≤ m.2 ∧ m.2 < r.nextQueryId
  terms_nodup : (r.mappings.map Prod.fst).Nodup
  ids_nodup : (r.mappings.map Prod.snd).Nodup
  resolved : ∀ t i, r.resolved t = some i → Maps sp r t i
  remembered : ∀ m ∈ r.mappings, r.resolved m.1 = some m.2

/-- A later resolver knows all that an earlier one knew. -/
def Extends (r r' : TermResolver) : Prop := ∀ m ∈ r.mappings, m ∈ r'.mappings

theorem Extends.maps (h : Extends r r') {t : TermId} {i : QueryTermId} (hm : Maps sp r t i) :
    Maps sp r' t i := hm.imp_right (h _)

namespace Resolved

theorem start : Resolved sp next ⟨false, fun _ => none, [], next⟩ where
  next_le := le_rfl
  fresh := by simp
  terms_nodup := nodup_nil
  ids_nodup := nodup_nil
  resolved := by simp
  remembered := by simp

theorem allowAllocate (h : Resolved sp next r) (allow : Bool) :
    Resolved sp next { r with allowAllocate := allow } :=
  ⟨h.next_le, h.fresh, h.terms_nodup, h.ids_nodup, h.resolved, h.remembered⟩

variable {i : QueryTermId} {t : TermId}

variable (h : Resolved sp next r)
include h

theorem maps_unique {j : QueryTermId} (hi : Maps sp r t i) (hj : Maps sp r t j) : i = j := by
  rcases hi with hi | hi
  · rcases hj with hj | hj
    · rw [hi] at hj
      exact Stored.value.inj hj
    · have hmissing := (h.fresh _ hj).1
      simp [hi] at hmissing
  · rcases hj with hj | hj
    · have hmissing := (h.fresh _ hi).1
      simp [hj] at hmissing
    · exact congrArg Prod.snd (inj_on_of_nodup_map h.terms_nodup hi hj rfl)

theorem maps_inj (hnum : Numbered sp next rows) {u : TermId}
    (ht : Maps sp r t i) (hu : Maps sp r u i) : t = u := by
  rcases ht with ht | ht
  · have ht' := (hnum.inverse t i).mp ht
    rcases hu with hu | hu
    · rw [(hnum.inverse u i).mp hu] at ht'
      exact (Stored.value.inj ht').symm
    · have hmissing := (h.fresh _ hu).2.1
      simp [ht'] at hmissing
  · rcases hu with hu | hu
    · have hmissing := (h.fresh _ ht).2.1
      simp [(hnum.inverse u i).mp hu] at hmissing
    · have heq : (t, i) = (u, i) := inj_on_of_nodup_map h.ids_nodup ht hu rfl
      exact congrArg Prod.fst heq

theorem maps_lt (hnum : Numbered sp next rows) (ht : Maps sp r t i) : i < r.nextQueryId := by
  rcases ht with ht | ht
  · exact lt_of_lt_of_le (hnum.below t i ht) h.next_le
  · exact (h.fresh _ ht).2.2.2

/-- Below the first new identifier only the stored mappings count. -/
theorem stored_of_lt (hi : i < next) (ht : Maps sp r t i) : sp.termToQuery t = .value i := by
  rcases ht with ht | ht
  · exact ht
  · exact absurd hi (Nat.not_lt.mpr (h.fresh _ ht).2.2.1)

end Resolved

/-! ## Terms -/

theorem resolved_remember (h : Resolved sp next r) {t : TermId} {i : QueryTermId}
    (hm : Maps sp r t i) : Resolved sp next (r.remember t i) where
  next_le := h.next_le
  fresh := h.fresh
  terms_nodup := h.terms_nodup
  ids_nodup := h.ids_nodup
  resolved := by
    intro u j hu
    by_cases htu : u = t
    · subst htu
      have : i = j := by simpa [remember] using hu
      exact this ▸ hm
    · refine h.resolved u j ?_
      simpa [remember, Function.update_of_ne htu] using hu
  remembered := by
    intro m hmem
    by_cases htu : m.1 = t
    · have hold := h.resolved _ _ (h.remembered m hmem)
      have : i = m.2 := h.maps_unique hm (htu ▸ hold)
      simp [remember, htu, this]
    · simpa [remember, Function.update_of_ne htu] using h.remembered m hmem

theorem resolved_allocate (h : Resolved sp next r) {t : TermId} (hnone : r.resolved t = none)
    (hterm : sp.termToQuery t = .missing) (hid : sp.queryToTerm r.nextQueryId = .missing) :
    Resolved sp next (r.allocate t) where
  next_le := Nat.le_succ_of_le h.next_le
  fresh := by
    intro m hmem
    show _ ∧ _ ∧ _ ∧ m.2 < r.nextQueryId + 1
    rcases mem_append.mp hmem with hold | hnew
    · obtain ⟨h1, h2, h3, h4⟩ := h.fresh m hold
      exact ⟨h1, h2, h3, Nat.lt_succ_of_lt h4⟩
    · obtain rfl := mem_singleton.mp hnew
      exact ⟨hterm, hid, h.next_le, Nat.lt_succ_self _⟩
  terms_nodup := by
    show ((r.mappings ++ [(t, r.nextQueryId)]).map Prod.fst).Nodup
    rw [map_append, nodup_append]
    refine ⟨h.terms_nodup, by simp, ?_⟩
    -- a term among the mappings is remembered, and this one is not
    intro u hu v hv heq
    obtain ⟨m, hm, rfl⟩ := mem_map.mp hu
    obtain rfl : v = t := by simpa using hv
    have := h.remembered m hm
    rw [heq, hnone] at this
    simp at this
  ids_nodup := by
    show ((r.mappings ++ [(t, r.nextQueryId)]).map Prod.snd).Nodup
    rw [map_append, nodup_append]
    refine ⟨h.ids_nodup, by simp, ?_⟩
    intro i hi j hj heq
    obtain ⟨m, hm, rfl⟩ := mem_map.mp hi
    obtain rfl : j = r.nextQueryId := by simpa using hj
    exact absurd heq (Nat.ne_of_lt (h.fresh m hm).2.2.2)
  resolved := by
    intro u j hu
    by_cases htu : u = t
    · subst htu
      have : r.nextQueryId = j := by simpa [allocate, remember] using hu
      exact Or.inr (by simp [allocate, this])
    · have hold : r.resolved u = some j := by
        simpa [allocate, remember, Function.update_of_ne htu] using hu
      exact (h.resolved u j hold).imp_right fun hmem => mem_append_left _ hmem
  remembered := by
    intro m hmem
    rcases mem_append.mp hmem with hold | hnew
    · have hne : m.1 ≠ t := by
        intro heq
        have := h.remembered m hold
        rw [heq, hnone] at this
        simp at this
      simpa [allocate, remember, Function.update_of_ne hne] using
        h.remembered m hold
    · obtain rfl := mem_singleton.mp hnew
      simp [allocate, remember]

/-- A way to resolve a term keeps the mappings one-to-one, and the term has the identifier. -/
def Resolves (sp : IndexSpaces) (next : QueryTermId)
    (resolve : TermId → TermResolver → Option (QueryTermId × TermResolver)) : Prop :=
  ∀ t r i r', Resolved sp next r → resolve t r = some (i, r') →
    Resolved sp next r' ∧ Extends r r' ∧ Maps sp r' t i

/-- What is remembered is returned; a stored identifier is remembered, and a new one allocated. -/
theorem resolves_of_cases
    {resolve : TermId → TermResolver → Option (QueryTermId × TermResolver)}
    (hcases : ∀ t r i r', resolve t r = some (i, r') → (r.resolved t = some i ∧ r' = r) ∨
      (sp.termToQuery t = .value i ∧ r' = r.remember t i) ∨
      (r.resolved t = none ∧ sp.termToQuery t = .missing ∧
        sp.queryToTerm r.nextQueryId = .missing ∧ i = r.nextQueryId ∧ r' = r.allocate t)) :
    Resolves sp next resolve := by
  intro t r i r' h hres
  rcases hcases t r i r' hres with ⟨hi, rfl⟩ | ⟨hi, rfl⟩ | ⟨hnone, hterm, hid, rfl, rfl⟩
  · exact ⟨h, fun _ hm => hm, h.resolved t i hi⟩
  · exact ⟨resolved_remember h (Or.inl hi), fun _ hm => hm, Or.inl hi⟩
  · exact ⟨resolved_allocate h hnone hterm hid, fun _ hm => mem_append_left _ hm,
      Or.inr (mem_append_right _ (mem_singleton_self _))⟩

theorem resolveQueryTerm_resolves : Resolves sp next (resolveQueryTerm sp) := by
  refine resolves_of_cases fun t r i r' h => ?_
  unfold resolveQueryTerm at h
  split at h
  · simp_all
  split at h
  · simp at h
  · split_ifs at h
    grind
  · split_ifs at h
    grind

/-- A source quad has the identifiers of `q`, stored ones or new ones. -/
structure MapsQuad (sp : IndexSpaces) (r : TermResolver) (e : EncodedQuad) (q : QueryQuad) : Prop where
  graph : Maps sp r e.graph q.graph
  subject : Maps sp r e.subject q.subject
  predicate : Maps sp r e.predicate q.predicate
  object : Maps sp r e.object q.object

variable {e : EncodedQuad} {q : QueryQuad}

theorem Extends.mapsQuad (h : Extends r r') (hm : MapsQuad sp r e q) : MapsQuad sp r' e q :=
  ⟨h.maps hm.graph, h.maps hm.subject, h.maps hm.predicate, h.maps hm.object⟩

theorem resolveTerms_spec {resolve : TermId → TermResolver → Option (QueryTermId × TermResolver)}
    (hresolve : Resolves sp next resolve) (h : Resolved sp next r)
    (hres : resolveTerms resolve e r = some (q, r')) :
    Resolved sp next r' ∧ Extends r r' ∧ MapsQuad sp r' e q := by
  unfold resolveTerms at hres
  simp only [bind, Option.bind_eq_some_iff, Prod.exists] at hres
  obtain ⟨g, r₁, hg, s, r₂, hs, p, r₃, hp, o, r₄, ho, heq⟩ := hres
  cases heq
  obtain ⟨h₁, x₁, mg⟩ := hresolve _ _ _ _ h hg
  obtain ⟨h₂, x₂, ms⟩ := hresolve _ _ _ _ h₁ hs
  obtain ⟨h₃, x₃, mp⟩ := hresolve _ _ _ _ h₂ hp
  obtain ⟨h₄, x₄, mo⟩ := hresolve _ _ _ _ h₃ ho
  refine ⟨h₄, fun m hm => x₄ m (x₃ m (x₂ m (x₁ m hm))), ?_, ?_, x₄.maps mp, mo⟩
  · exact x₄.maps (x₃.maps (x₂.maps mg))
  · exact x₄.maps (x₃.maps ms)

/-! ## Rows -/

/-- The rows of an exact slot are in the same state in all orders. -/
theorem rowStates_eq (hexact : Exact sp next rows) (q : QueryQuad) (isLive : Bool) :
    rowStates sp q isLive = some (decide (q ∈ rows) == isLive, decide (q ∈ rows) != isLive) := by
  have hget : ∀ o, (sp.orders o).get q = if q ∈ rows then .value () else .missing := by
    intro o
    simp [hexact.orders, OrderSpace.get]
  unfold rowStates IndexKeyOrder.all
  by_cases hq : q ∈ rows
  · cases isLive with
    | true | false => simp [foldlM, hget, hq]
  · cases isLive with
    | true | false => simp [foldlM, hget, hq]

theorem Resolved.mapsQuad_unique (h : Resolved sp next r) {q' : QueryQuad}
    (hq : MapsQuad sp r e q) (hq' : MapsQuad sp r e q') : q = q' := by
  ext
  · exact h.maps_unique hq.graph hq'.graph
  · exact h.maps_unique hq.subject hq'.subject
  · exact h.maps_unique hq.predicate hq'.predicate
  · exact h.maps_unique hq.object hq'.object

theorem Resolved.mapsQuad_inj (h : Resolved sp next r) (hnum : Numbered sp next rows)
    {e' : EncodedQuad} (he : MapsQuad sp r e q) (he' : MapsQuad sp r e' q) :
    e = e' := by
  apply Quad.ext
  · exact h.maps_inj hnum he.graph he'.graph
  · exact h.maps_inj hnum he.subject he'.subject
  · exact h.maps_inj hnum he.predicate he'.predicate
  · exact h.maps_inj hnum he.object he'.object

theorem Denotes.mapsQuad (h : Denotes sp e q) (r : TermResolver) : MapsQuad sp r e q :=
  ⟨Or.inl h.graph, Or.inl h.subject, Or.inl h.predicate, Or.inl h.object⟩

/-- A row has no new identifier, so what maps to it is stored. -/
theorem Resolved.denotes_of_mem (h : Resolved sp next r) (hnum : Numbered sp next rows)
    (hq : q ∈ rows) (hm : MapsQuad sp r e q) :
    Denotes sp e q where
  graph := h.stored_of_lt (hnum.rows_below q hq _ (by simp [Quad.terms])) hm.graph
  subject := h.stored_of_lt (hnum.rows_below q hq _ (by simp [Quad.terms])) hm.subject
  predicate := h.stored_of_lt (hnum.rows_below q hq _ (by simp [Quad.terms])) hm.predicate
  object := h.stored_of_lt (hnum.rows_below q hq _ (by simp [Quad.terms])) hm.object

/-! ## Transitions -/

/-- **Net liveness transitions that fit a slot**: one for a quad, each a difference, and each
from the state that the slot has. -/
structure Consistent (sp : IndexSpaces) (rows : Finset QueryQuad)
    (transitions : List NetQuadTransition) : Prop where
  nodup : (transitions.map (·.quad)).Nodup
  flips : ∀ τ ∈ transitions, τ.isLive = !τ.wasLive
  was : ∀ τ ∈ transitions, τ.wasLive = true ↔ ∃ q ∈ rows, Denotes sp τ.quad q

variable {transitions : List NetQuadTransition} {τ : NetQuadTransition}

theorem Consistent.tail
    (h : Consistent sp rows (τ :: transitions)) : Consistent sp rows transitions where
  nodup := (nodup_cons.mp h.nodup).2
  flips σ hσ := h.flips σ (mem_cons_of_mem _ hσ)
  was σ hσ := h.was σ (mem_cons_of_mem _ hσ)

structure ChangeOf (sp : IndexSpaces) (rows : Finset QueryQuad) (r : TermResolver)
    (τ : NetQuadTransition) (c : QueryQuad × Bool) : Prop where
  live : c.2 = τ.isLive
  maps : MapsQuad sp r τ.quad c.1
  differs : c.1 ∈ rows ↔ c.2 = false

/-- **One round of planning** adds the change of the transition. -/
theorem planTransition_spec (hexact : Exact sp next rows) (h : Resolved sp next r)
    (hflip : τ.isLive = !τ.wasLive) (hwas : τ.wasLive = true ↔ ∃ q ∈ rows, Denotes sp τ.quad q)
    {out out' : List (QueryQuad × Bool)} (hplan : planTransition sp (r, out) τ = some (r', out')) :
    Resolved sp next r' ∧ Extends r r' ∧ ∃ c, out' = out ++ [c] ∧ ChangeOf sp rows r' τ c := by
  unfold planTransition at hplan
  simp only [bind, Option.bind_eq_some_iff, Prod.exists] at hplan
  obtain ⟨q, r₁, hq, desired, prior, hstates, hout⟩ := hplan
  obtain ⟨h₁, x₁, m₁⟩ := resolveTerms_spec resolveQueryTerm_resolves (h.allowAllocate τ.isLive) hq
  have hdiffers : q ∈ rows ↔ τ.isLive = false := by
    constructor
    · intro hmem
      have : τ.wasLive = true := hwas.mpr ⟨q, hmem, h₁.denotes_of_mem hexact.toNumbered hmem m₁⟩
      simp [hflip, this]
    · intro hdead
      have hwasLive : τ.wasLive = true := by simpa [hflip] using hdead
      obtain ⟨q', hmem, hden⟩ := hwas.mp hwasLive
      rwa [h₁.mapsQuad_unique m₁ (hden.mapsQuad r₁)]
  -- the row is in the other state in all orders, so the change is listed
  have hdecide : decide (q ∈ rows) = !τ.isLive := by
    by_cases hmem : q ∈ rows
    · simp [hmem, hdiffers.mp hmem]
    · have : τ.isLive = true := by simpa [hdiffers] using hmem
      simp [hmem, this]
  rw [rowStates_eq hexact, hdecide] at hstates
  cases hstates
  have hout' : some (r₁, out ++ [(q, τ.isLive)]) = some (r', out') := by
    simpa using hout
  cases hout'
  exact ⟨h₁, x₁, (q, τ.isLive), rfl, rfl, m₁, hdiffers⟩

/-- **The loop over the transitions** lists one change for each. -/
theorem planTransitions_spec (hexact : Exact sp next rows) (hcons : Consistent sp rows transitions)
    (h : Resolved sp next r) {out out' : List (QueryQuad × Bool)}
    (hplan : transitions.foldlM (planTransition sp) (r, out) = some (r', out')) :
    Resolved sp next r' ∧ Extends r r' ∧ ∃ changes, out' = out ++ changes ∧
      List.Forall₂ (ChangeOf sp rows r') transitions changes := by
  induction transitions generalizing r out with
  | nil =>
    cases hplan
    exact ⟨h, fun _ hm => hm, [], by simp, List.Forall₂.nil⟩
  | cons τ transitions ih =>
    rw [foldlM_cons] at hplan
    obtain ⟨⟨r₁, out₁⟩, hhead, htail⟩ := Option.bind_eq_some_iff.mp hplan
    obtain ⟨h₁, x₁, c, rfl, hc⟩ := planTransition_spec hexact h
      (hcons.flips τ mem_cons_self) (hcons.was τ mem_cons_self) hhead
    obtain ⟨h₂, x₂, changes, rfl, hchanges⟩ := ih hcons.tail h₁ htail
    refine ⟨h₂, fun m hm => x₂ m (x₁ m hm), c :: changes, by simp, ?_⟩
    exact List.Forall₂.cons ⟨hc.live, Extends.mapsQuad x₂ hc.maps, hc.differs⟩ hchanges

/-! ## The changes as a whole -/

variable {changes : List (QueryQuad × Bool)}

theorem exists_of_forall₂ {α β : Type} {R : α → β → Prop} {as : List α} {bs : List β}
    (h : List.Forall₂ R as bs) {a : α} (ha : a ∈ as) : ∃ b ∈ bs, R a b := by
  induction h with
  | nil => simp at ha
  | cons hhead _ ih =>
    rcases mem_cons.mp ha with rfl | ha
    · exact ⟨_, mem_cons_self, hhead⟩
    · obtain ⟨b, hb, hR⟩ := ih ha
      exact ⟨b, mem_cons_of_mem _ hb, hR⟩

theorem exists_change (h : List.Forall₂ (ChangeOf sp rows r) transitions changes)
    (hτ : τ ∈ transitions) : ∃ c ∈ changes, ChangeOf sp rows r τ c :=
  exists_of_forall₂ h hτ

theorem exists_transition (h : List.Forall₂ (ChangeOf sp rows r) transitions changes)
    {c : QueryQuad × Bool} (hc : c ∈ changes) : ∃ τ ∈ transitions, ChangeOf sp rows r τ c :=
  exists_of_forall₂ h.flip hc

theorem effective_changes (hnum : Numbered sp next rows) (hr : Resolved sp next r)
    (hnodup : (transitions.map (·.quad)).Nodup)
    (h : List.Forall₂ (ChangeOf sp rows r) transitions changes) :
    Toggle.Effective rows changes := by
  refine ⟨?_, fun c hc => ?_⟩
  · induction h with
    | nil => simp
    | cons hc hrest ih =>
      rw [map_cons, nodup_cons] at hnodup ⊢
      refine ⟨fun hmem => hnodup.1 ?_, ih hnodup.2⟩
      -- the same row twice is the same quad twice
      obtain ⟨c', hc', heq⟩ := mem_map.mp hmem
      obtain ⟨τ', hτ', hchange⟩ := exists_transition hrest hc'
      rw [hr.mapsQuad_inj hnum hc.maps (heq ▸ hchange.maps)]
      exact mem_map_of_mem hτ'
  · obtain ⟨τ, _, hchange⟩ := exists_transition h hc
    exact hchange.differs

end Craqle
