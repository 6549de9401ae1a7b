import Mathlib.Data.Set.Insert

/-! # Observed-remove maps with a causal context

An observed-remove map supports each key by a set of *dots*, the identities of the events
that added it, and keeps one *causal context*, the set of every dot it has seen. A dot that
was seen and is not held was removed, so no tombstone per dot is needed.

* `CausalMap` is such a map, over arbitrary keys and dots. Its join keeps a dot iff some
  side holds it and every side that has seen it holds it, and the join is the least upper
  bound of the order "`b` knows everything `a` knows" (`instSemilatticeSup`).
* `History` is a set of events, each with the dots in its causal past. `Represents` says
  that a map is what a causally closed set of events leaves. The two rules a replica needs
  are `Represents.insert` (one more event is applied) and `Represents.sup` (two replicas
  are joined).
-/

namespace ObservedRemove

universe u v

/-! ## The lattice of causal maps -/

/-- The dots each key is supported by, and the dots seen. -/
@[ext]
structure CausalMap (κ : Type u) (δ : Type v) where
  live : κ → Set δ
  seen : Set δ
  live_subset : ∀ k, live k ⊆ seen

namespace CausalMap

variable {κ : Type u} {δ : Type v}

/-- `a ≤ b`: `b` has seen every dot `a` has, and holds no dot that `a` saw removed. -/
instance instPartialOrder : PartialOrder (CausalMap κ δ) where
  le a b := a.seen ⊆ b.seen ∧ ∀ k d, d ∈ b.live k → d ∈ a.seen → d ∈ a.live k
  le_refl a := ⟨subset_rfl, fun _ _ h _ => h⟩
  le_trans a b c hab hbc :=
    ⟨hab.1.trans hbc.1, fun k d hc ha => hab.2 k d (hbc.2 k d hc (hab.1 ha)) ha⟩
  le_antisymm a b hab hba := by
    have hseen : a.seen = b.seen := hab.1.antisymm hba.1
    ext k d
    · constructor
      · intro hd
        exact hba.2 k d hd (hseen ▸ a.live_subset k hd)
      · intro hd
        exact hab.2 k d hd (hseen ▸ b.live_subset k hd)
    · rw [hseen]

/-- The join: a dot is held iff some side holds it and every side that saw it holds it. -/
def join (a b : CausalMap κ δ) : CausalMap κ δ where
  live k := {d | (d ∈ a.live k ∨ d ∈ b.live k) ∧
    (d ∈ a.seen → d ∈ a.live k) ∧ (d ∈ b.seen → d ∈ b.live k)}
  seen := a.seen ∪ b.seen
  live_subset k _ hd := hd.1.imp (fun h => a.live_subset k h) (fun h => b.live_subset k h)

/-- **The join is the least upper bound.** -/
instance instSemilatticeSup : SemilatticeSup (CausalMap κ δ) where
  sup := join
  le_sup_left a b := ⟨Set.subset_union_left, fun _ _ h ha => h.2.1 ha⟩
  le_sup_right a b := ⟨Set.subset_union_right, fun _ _ h hb => h.2.2 hb⟩
  sup_le a b c hac hbc := by
    refine ⟨Set.union_subset hac.1 hbc.1, ?_⟩
    intro k d hc hd
    have hsides : d ∈ a.live k ∨ d ∈ b.live k :=
      hd.imp (fun ha => hac.2 k d hc ha) (fun hb => hbc.2 k d hc hb)
    exact ⟨hsides, hac.2 k d hc, hbc.2 k d hc⟩

theorem mem_sup_live {a b : CausalMap κ δ} {k : κ} {d : δ} :
    d ∈ (a ⊔ b).live k ↔ (d ∈ a.live k ∨ d ∈ b.live k) ∧
      (d ∈ a.seen → d ∈ a.live k) ∧ (d ∈ b.seen → d ∈ b.live k) := Iff.rfl

@[simp] theorem sup_seen (a b : CausalMap κ δ) : (a ⊔ b).seen = a.seen ∪ b.seen := rfl

end CausalMap

/-! ## What a set of events leaves -/

/-- Events named by their dots: which keys each adds, which dots it removes from which key,
and the dots in its causal past. An event removes only dots of its past, and is not in it. -/
structure History (κ : Type u) (δ : Type v) where
  events : Set δ
  adds : δ → κ → Prop
  removes : δ → κ → δ → Prop
  past : δ → Set δ
  adds_event : ∀ {e k}, adds e k → e ∈ events
  removes_past : ∀ {e k d}, removes e k d → d ∈ past e
  not_mem_past : ∀ e ∈ events, e ∉ past e

namespace History

variable {κ : Type u} {δ : Type v} (h : History κ δ)

/-- The dots of `k` left by the events `A`: added by one of them and removed by none. -/
def liveAfter (A : Set δ) (k : κ) : Set δ :=
  {d | d ∈ A ∧ h.adds d k ∧ ∀ e ∈ A, ¬ h.removes e k d}

structure Closed (A : Set δ) : Prop where
  subset : A ⊆ h.events
  past : ∀ e ∈ A, ∀ d ∈ h.past e, d ∈ h.events → d ∈ A

variable {h} {A : Set δ}

theorem Closed.union {B : Set δ} (hA : h.Closed A) (hB : h.Closed B) : h.Closed (A ∪ B) where
  subset := Set.union_subset hA.subset hB.subset
  past := by
    rintro e (he | he) d hd hev
    · exact Or.inl (hA.past e he d hd hev)
    · exact Or.inr (hB.past e he d hd hev)

theorem Closed.insert {e : δ} (hA : h.Closed A) (he : e ∈ h.events)
    (hpast : ∀ d ∈ h.past e, d ∈ h.events → d ∈ A) : h.Closed (insert e A) where
  subset := Set.insert_subset he hA.subset
  past := by
    rintro e' (rfl | he') d hd hev
    · exact Set.mem_insert_of_mem _ (hpast d hd hev)
    · exact Set.mem_insert_of_mem _ (hA.past e' he' d hd hev)

/-- A closed set holds every event that one of its members removes a dot of. -/
theorem Closed.mem_of_removes (hA : h.Closed A) {e d : δ} {k : κ} (he : e ∈ A)
    (hr : h.removes e k d) (hd : h.adds d k) : d ∈ A :=
  hA.past e he d (h.removes_past hr) (h.adds_event hd)

theorem mem_liveAfter_insert {e d : δ} {k : κ} (hA : h.Closed A)
    (he : e ∈ h.events) (hnew : e ∉ A) :
    d ∈ h.liveAfter (insert e A) k ↔
      (d ∈ h.liveAfter A k ∧ ¬ h.removes e k d) ∨ (d = e ∧ h.adds e k) := by
  constructor
  · rintro ⟨hd | hd, hadd, hrem⟩
    · subst hd
      exact Or.inr ⟨rfl, hadd⟩
    · exact Or.inl ⟨⟨hd, hadd, fun e' he' => hrem e' (Set.mem_insert_of_mem _ he')⟩,
        hrem e (Set.mem_insert _ _)⟩
  · rintro (⟨⟨hd, hadd, hrem⟩, hne⟩ | ⟨hd, hadd⟩)
    · refine ⟨Set.mem_insert_of_mem _ hd, hadd, ?_⟩
      rintro e' (rfl | he')
      · exact hne
      · exact hrem e' he'
    · subst hd
      refine ⟨Set.mem_insert _ _, hadd, ?_⟩
      rintro e' (rfl | he') hr
      · exact h.not_mem_past _ he (h.removes_past hr)
      · -- a remover already applied would have forced the new event into the closed set
        exact hnew (hA.mem_of_removes he' hr hadd)

theorem mem_liveAfter_union {B : Set δ} {d : δ} {k : κ} (hA : h.Closed A) (hB : h.Closed B) :
    d ∈ h.liveAfter (A ∪ B) k ↔ (d ∈ h.liveAfter A k ∨ d ∈ h.liveAfter B k) ∧
      (d ∈ A → d ∈ h.liveAfter A k) ∧ (d ∈ B → d ∈ h.liveAfter B k) := by
  constructor
  · rintro ⟨hd, hadd, hrem⟩
    have hl : d ∈ A → d ∈ h.liveAfter A k := fun ha => ⟨ha, hadd, fun e he => hrem e (Or.inl he)⟩
    have hr : d ∈ B → d ∈ h.liveAfter B k := fun hb => ⟨hb, hadd, fun e he => hrem e (Or.inr he)⟩
    exact ⟨hd.imp hl hr, hl, hr⟩
  · rintro ⟨hside, hl, hr⟩
    have hadd : h.adds d k := hside.elim (fun hd => hd.2.1) (fun hd => hd.2.1)
    refine ⟨hside.imp (fun hd => hd.1) (fun hd => hd.1), hadd, ?_⟩
    rintro e (he | he) hre
    · exact (hl (hA.mem_of_removes he hre hadd)).2.2 e he hre
    · exact (hr (hB.mem_of_removes he hre hadd)).2.2 e he hre

/-! ## Maps that represent a set of events -/

structure Represents (h : History κ δ) (m : CausalMap κ δ) (A : Set δ) : Prop where
  closed : h.Closed A
  live : ∀ k, m.live k = h.liveAfter A k
  seen : ∀ d ∈ h.events, d ∈ m.seen ↔ d ∈ A

/-- **Applying one more event**: the dots it removes go, its own dot comes. -/
theorem Represents.insert {m m' : CausalMap κ δ} {e : δ} (hm : h.Represents m A) (he : e ∈ h.events)
    (hnew : e ∉ m.seen) (hpast : ∀ d ∈ h.past e, d ∈ h.events → d ∈ m.seen)
    (hlive : ∀ k d, d ∈ m'.live k ↔ (d ∈ m.live k ∧ ¬ h.removes e k d) ∨ (d = e ∧ h.adds e k))
    (hseen : ∀ d ∈ h.events, d ∈ m'.seen ↔ d = e ∨ d ∈ m.seen) :
    h.Represents m' (insert e A) where
  closed := hm.closed.insert he fun d hd hev => (hm.seen d hev).mp (hpast d hd hev)
  live k := by
    ext d
    rw [hlive, mem_liveAfter_insert hm.closed he (fun h' => hnew ((hm.seen e he).mpr h')), hm.live]
  seen d hd := by
    rw [hseen d hd, hm.seen d hd, Set.mem_insert_iff]

/-- **Joining two replicas** leaves what the union of their events leaves. -/
theorem Represents.sup {m n : CausalMap κ δ} {B : Set δ} (hm : h.Represents m A)
    (hn : h.Represents n B) : h.Represents (m ⊔ n) (A ∪ B) where
  closed := hm.closed.union hn.closed
  live k := by
    ext d
    rw [mem_liveAfter_union hm.closed hn.closed, CausalMap.mem_sup_live, hm.live, hn.live]
    -- the two sides differ only in `seen` against the event sets, which agree on added dots
    refine and_congr_right fun hside => ?_
    have hev : d ∈ h.events := hside.elim (fun hd => h.adds_event hd.2.1)
      (fun hd => h.adds_event hd.2.1)
    rw [hm.seen d hev, hn.seen d hev]
  seen d hd := by
    rw [CausalMap.sup_seen, Set.mem_union, Set.mem_union, hm.seen d hd, hn.seen d hd]

end History

end ObservedRemove
