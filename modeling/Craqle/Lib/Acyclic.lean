import Craqle.Lib.Fallible
import Mathlib.Data.Finset.Card

/-! # Relations without cycles

A depth-first search for a cycle, with the nodes on the current path and the nodes that are done.
It succeeds exactly when there is no cycle (`searchAll_eq_ok`).

Without a cycle every node of a finite relation has a rank below the number of nodes, and ranks fall
along the relation (`rank_lt_rank`, `rank_lt_card`). So an equation that explains a function at a
node by its values at the successors has a solution, and only one (`exists_solution`,
`solution_unique`).
-/

namespace Acyclicity

open List Fallible Finset
open Relation (ReflTransGen TransGen)

universe u v

variable {α : Type u}

/-- No node reaches itself. -/
def Acyclic (R : α → α → Prop) : Prop := ∀ a, ¬ TransGen R a a

/-- A cycle of two relations together is one of the first, or it follows the second somewhere. -/
theorem transGen_or {R S : α → α → Prop} {a b : α} (h : TransGen (fun x y => R x y ∨ S x y) a b) :
    TransGen R a b ∨ ∃ x y, S x y ∧ ReflTransGen (fun x y => R x y ∨ S x y) a x ∧
      ReflTransGen (fun x y => R x y ∨ S x y) y b := by
  induction h with
  | single hedge =>
    rcases hedge with hR | hS
    · exact .inl (.single hR)
    · exact .inr ⟨a, _, hS, .refl, .refl⟩
  | @tail b c hab hedge ih =>
    rcases ih with hR | ⟨x, y, hS, hax, hyb⟩
    · rcases hedge with hR' | hS
      · exact .inl (hR.tail hR')
      · exact .inr ⟨b, c, hS, hab.to_reflTransGen, .refl⟩
    · exact .inr ⟨x, y, hS, hax, hyb.tail hedge⟩

/-- Two relations have no cycle together if the first has none and none goes through the second. -/
theorem acyclic_or {R S : α → α → Prop} (hR : Acyclic R)
    (hS : ∀ x y, S x y → ¬ ReflTransGen (fun x y => R x y ∨ S x y) y x) :
    Acyclic fun x y => R x y ∨ S x y := by
  intro a hcycle
  rcases transGen_or hcycle with h | ⟨x, y, hxy, hax, hya⟩
  · exact hR a h
  · exact hS x y hxy (hya.trans hax)

/-! ## The search -/

section Search

variable [DecidableEq α]

/-- Search from a node for one that is met again on the path to it. -/
def search (succ : α → List α) : Nat → List α → α → List α → Except α (List α)
  | 0, _, x, _ => .error x
  | fuel + 1, active, x, complete =>
    if x ∈ active then .error x
    else if x ∈ complete then .ok complete
    else do
      let complete ← (succ x).foldlM
        (fun complete y => search succ fuel (x :: active) y complete) complete
      .ok (x :: complete)

/-- Search from all nodes that have successors. -/
def searchAll (succ : α → List α) (fuel : Nat) (keys : List α) : Except α (List α) :=
  keys.foldlM (fun complete x => search succ fuel [] x complete) []

/-- The nodes that are done have their successors among them, are on no cycle and differ. -/
structure Settled (succ : α → List α) (complete : List α) : Prop where
  closed : ∀ x ∈ complete, ∀ y ∈ succ x, y ∈ complete
  free : ∀ x ∈ complete, ¬ TransGen (fun x y => y ∈ succ x) x x
  nodup : complete.Nodup

variable {succ : α → List α} {complete : List α}

omit [DecidableEq α] in
theorem Settled.mem_of_reaches (h : Settled succ complete) {x y : α}
    (hx : x ∈ complete) (hreach : ReflTransGen (fun x y => y ∈ succ x) x y) : y ∈ complete := by
  induction hreach with
  | refl => exact hx
  | tail _ hedge ih => exact h.closed _ ih _ hedge

omit [DecidableEq α] in
/-- A node is done after its successors are, if it was not among them. -/
theorem Settled.cons (h : Settled succ complete) {x : α} (hx : x ∉ complete)
    (hsucc : ∀ y ∈ succ x, y ∈ complete) : Settled succ (x :: complete) := by
  have hfree : ¬ TransGen (fun x y => y ∈ succ x) x x := by
    intro hcycle
    obtain ⟨y, hy, hreach⟩ := TransGen.head'_iff.mp hcycle
    exact hx (h.mem_of_reaches (hsucc y hy) hreach)
  refine ⟨fun z hz y hy => mem_cons_of_mem _ ?_, forall_mem_cons.mpr ⟨hfree, h.free⟩,
    nodup_cons.mpr ⟨hx, h.nodup⟩⟩
  rcases mem_cons.mp hz with rfl | hz
  · exact hsucc y hy
  · exact h.closed z hz y hy

/-- What a search that succeeds has done: nothing on the path is done because of it. -/
structure Extends (succ : α → List α) (active before after : List α) : Prop where
  settled : Settled succ after
  subset : ∀ x ∈ before, x ∈ after
  apart : ∀ x ∈ active, x ∈ after → x ∈ before

omit [DecidableEq α] in
/-- A loop whose turns each extend what is done extends it too. -/
theorem foldlM_extends {visit : List α → α → Except α (List α)} {active after : List α}
    (hvisit : ∀ x before next, Settled succ before → visit before x = .ok next →
      Extends succ active before next ∧ x ∈ next) (xs : List α) {before : List α}
    (hbefore : Settled succ before) (hrun : xs.foldlM visit before = .ok after) :
    Extends succ active before after ∧ ∀ x ∈ xs, x ∈ after := by
  induction xs generalizing before with
  | nil =>
    cases hrun
    exact ⟨⟨hbefore, fun _ h => h, fun _ _ h => h⟩, by simp⟩
  | cons x xs ih =>
    obtain ⟨middle, hstep, hrest⟩ := foldlM_cons_eq_ok.mp hrun
    obtain ⟨hfirst, hx⟩ := hvisit x before middle hbefore hstep
    obtain ⟨hlater, hxs⟩ := ih hfirst.settled hrest
    refine ⟨⟨hlater.settled, fun z hz => hlater.subset z (hfirst.subset z hz),
      fun z hz hin => hfirst.apart z hz (hlater.apart z hz hin)⟩, ?_⟩
    exact forall_mem_cons.mpr ⟨hlater.subset x hx, hxs⟩

theorem search_extends {fuel : Nat} {active complete' : List α} {x : α}
    (hsettled : Settled succ complete) (h : search succ fuel active x complete = .ok complete') :
    Extends succ active complete complete' ∧ x ∈ complete' := by
  induction fuel generalizing active complete complete' x with
  | zero => cases h
  | succ fuel ih =>
    rw [search] at h
    split at h
    · cases h
    split at h
    · next hdone =>
      cases h
      exact ⟨⟨hsettled, fun _ h => h, fun _ _ h => h⟩, hdone⟩
    rename_i hactive hdone
    obtain ⟨after, hfold, hafter⟩ := bind_eq_ok.mp h
    cases hafter
    obtain ⟨hext, hsucc⟩ := foldlM_extends (fun _ _ _ => ih) (succ x) hsettled hfold
    have hx : x ∉ after := fun hin => hdone (hext.apart x mem_cons_self hin)
    refine ⟨⟨hext.settled.cons hx hsucc, fun z hz => ?_, fun z hz hin => ?_⟩, mem_cons_self⟩
    · exact mem_cons_of_mem _ (hext.subset z hz)
    · rcases mem_cons.mp hin with rfl | hin
      · exact absurd hz hactive
      · exact hext.apart z (mem_cons_of_mem _ hz) hin

/-- A search that reaches no cycle succeeds, if it has enough fuel for a path through all nodes. -/
theorem search_total {nodes : List α} (hnodes : ∀ x, ∀ y ∈ succ x, y ∈ nodes) {fuel : Nat}
    {active : List α} {x : α} (hx : x ∈ nodes) (hnodup : active.Nodup)
    (hmem : ∀ a ∈ active, a ∈ nodes) (hpath : ∀ a ∈ active, TransGen (fun x y => y ∈ succ x) a x)
    (hfuel : nodes.length < fuel + active.length)
    (hfree : ∀ z, ReflTransGen (fun x y => y ∈ succ x) x z → ¬ TransGen (fun x y => y ∈ succ x) z z)
    (complete : List α) : ∃ complete', search succ fuel active x complete = .ok complete' := by
  induction fuel generalizing active complete x with
  | zero =>
    have hle : active.length ≤ nodes.length := (hnodup.subperm hmem).length_le
    omega
  | succ fuel ih =>
    rw [search]
    split
    · next hactive => exact absurd (hpath x hactive) (hfree x .refl)
    split
    · exact ⟨complete, rfl⟩
    rename_i hactive _
    have hsteps : ∀ y ∈ succ x, ∀ complete, ∃ next,
        search succ fuel (x :: active) y complete = .ok next := by
      intro y hy complete
      refine ih (hnodes x y hy) (nodup_cons.mpr ⟨hactive, hnodup⟩) (forall_mem_cons.mpr ⟨hx, hmem⟩)
        (forall_mem_cons.mpr ⟨.single hy, fun a ha => (hpath a ha).tail hy⟩) ?_
        (fun z hz => hfree z (.head hy hz)) complete
      rw [length_cons]
      omega
    obtain ⟨after, hafter⟩ := foldlM_total hsteps complete
    rw [hafter]
    exact ⟨_, rfl⟩

/-- The search from all nodes that have successors succeeds exactly when there is no cycle. -/
theorem searchAll_eq_ok {nodes keys : List α} {fuel : Nat}
    (hnodes : ∀ x, ∀ y ∈ succ x, y ∈ nodes) (hkeys : ∀ x ∈ keys, x ∈ nodes)
    (hall : ∀ x, ∀ y ∈ succ x, x ∈ keys) (hfuel : nodes.length < fuel) :
    (∃ complete, searchAll succ fuel keys = .ok complete) ↔
      Acyclic fun x y => y ∈ succ x := by
  constructor
  · rintro ⟨complete, hrun⟩ a hcycle
    obtain ⟨hext, hmem⟩ := foldlM_extends (fun _ _ _ => search_extends) keys
      ⟨by simp, by simp, nodup_nil⟩ hrun
    obtain ⟨y, hy, _⟩ := TransGen.head'_iff.mp hcycle
    exact hext.settled.free a (hmem a (hall a y hy)) hcycle
  · intro hacyclic
    refine foldlM_total (fun x hx complete => ?_) []
    refine search_total hnodes (hkeys x hx) nodup_nil (by simp) (by simp) ?_
      (fun z _ => hacyclic z) complete
    simpa using hfuel

/-- What a search adds can be reached. -/
theorem search_reaches {fuel : Nat} {active complete' : List α} {x : α}
    (h : search succ fuel active x complete = .ok complete') :
    ∀ z ∈ complete', z ∈ complete ∨ ReflTransGen (fun x y => y ∈ succ x) x z := by
  induction fuel generalizing active complete complete' x with
  | zero => cases h
  | succ fuel ih =>
    rw [search] at h
    split at h
    · cases h
    split at h
    · cases h
      exact fun _ => .inl
    obtain ⟨after, hfold, hafter⟩ := bind_eq_ok.mp h
    cases hafter
    have hreach := foldlM_preserves
      (P := fun done => ∀ z ∈ done, z ∈ complete ∨ ReflTransGen (fun x y => y ∈ succ x) x z)
      (fun y hy before next hbefore hstep z hz =>
        (ih hstep z hz).elim (hbefore z) fun hyz => .inr (.head hy hyz))
      hfold fun _ => .inl
    exact forall_mem_cons.mpr ⟨.inr .refl, hreach⟩

/-- **The search from one node** succeeds exactly when it reaches no cycle, and finds what it
reaches. -/
theorem search_eq_ok {nodes : List α} {fuel : Nat} {x : α} (hnodes : ∀ x, ∀ y ∈ succ x, y ∈ nodes)
    (hx : x ∈ nodes) (hfuel : nodes.length < fuel) :
    ((∃ found, search succ fuel [] x [] = .ok found) ↔
      ¬ ∃ z, ReflTransGen (fun x y => y ∈ succ x) x z ∧ TransGen (fun x y => y ∈ succ x) z z) ∧
    ∀ found, search succ fuel [] x [] = .ok found → found.Nodup ∧
      ∀ z, z ∈ found ↔ ReflTransGen (fun x y => y ∈ succ x) x z := by
  have hfound : ∀ found, search succ fuel [] x [] = .ok found → Settled succ found ∧
      ∀ z, z ∈ found ↔ ReflTransGen (fun x y => y ∈ succ x) x z := by
    intro found hrun
    obtain ⟨hext, hmem⟩ := search_extends ⟨by simp, by simp, nodup_nil⟩ hrun
    refine ⟨hext.settled, fun z => ⟨fun hz => ?_, hext.settled.mem_of_reaches hmem⟩⟩
    exact (search_reaches hrun z hz).resolve_left not_mem_nil
  refine ⟨⟨?_, fun hfree => ?_⟩, fun found hrun => ?_⟩
  · rintro ⟨found, hrun⟩ ⟨z, hz, hcycle⟩
    obtain ⟨hsettled, hreach⟩ := hfound found hrun
    exact hsettled.free z ((hreach z).mpr hz) hcycle
  · exact search_total hnodes hx nodup_nil (by simp) (by simp) (by simpa)
      (fun z hz hcycle => hfree ⟨z, hz, hcycle⟩) []
  · obtain ⟨hsettled, hreach⟩ := hfound found hrun
    exact ⟨hsettled.nodup, hreach⟩

end Search

/-! ## Ranks -/

variable {R : α → α → Prop} {nodes : Finset α} {a b : α}

open Classical in
/-- How many nodes a node reaches. -/
noncomputable def rank (R : α → α → Prop) (nodes : Finset α) (a : α) : Nat :=
  (nodes.filter fun b => TransGen R a b).card

theorem rank_lt_rank (hacyclic : Acyclic R) (hR : R a b) (hb : b ∈ nodes) :
    rank R nodes b < rank R nodes a := by
  classical
  refine card_lt_card ⟨fun c hc => ?_, fun hsub => ?_⟩
  · rw [Finset.mem_filter] at hc ⊢
    exact ⟨hc.1, hc.2.head hR⟩
  · have hself := hsub (mem_filter.mpr ⟨hb, .single hR⟩)
    exact hacyclic b (mem_filter.mp hself).2

theorem rank_lt_card (hacyclic : Acyclic R) (ha : a ∈ nodes) : rank R nodes a < nodes.card := by
  classical
  refine card_lt_card ⟨filter_subset _ _, fun hsub => ?_⟩
  exact hacyclic a (mem_filter.mp (hsub ha)).2

/-! ## Chains -/

/-- A chain along which a measure falls is no longer than the measure of its start. -/
theorem length_le_of_isChain {measure : α → Nat} (hfalls : ∀ a b, R a b → measure b < measure a)
    {chain : List α} (h : IsChain R (a :: chain)) : chain.length ≤ measure a := by
  induction chain generalizing a with
  | nil => exact Nat.zero_le _
  | cons b chain ih =>
    obtain ⟨hab, hchain⟩ := isChain_cons_cons.mp h
    exact Nat.lt_of_le_of_lt (ih hchain) (hfalls a b hab)

/-- What reaches the start of a chain is the start of a longer one. -/
theorem exists_longer_chain (hab : TransGen R a b) {chain : List α} (h : IsChain R (b :: chain)) :
    ∃ longer : List α, IsChain R (a :: longer) ∧ chain.length < longer.length := by
  induction hab using TransGen.head_induction_on with
  | single hstep => exact ⟨b :: chain, isChain_cons_cons.mpr ⟨hstep, h⟩, Nat.lt_succ_self _⟩
  | @head a c hstep _ ih =>
    obtain ⟨longer, hlonger, hlt⟩ := ih
    exact ⟨c :: longer, isChain_cons_cons.mpr ⟨hstep, hlonger⟩, Nat.lt_succ_of_lt hlt⟩

/-- No node reaches itself if the chains from it are bounded. -/
theorem not_transGen_self {bound : Nat}
    (hbound : ∀ chain : List α, IsChain R (a :: chain) → chain.length < bound) :
    ¬ TransGen R a a := by
  intro hcycle
  have hlong : ∀ n, ∃ chain : List α, IsChain R (a :: chain) ∧ n ≤ chain.length := by
    intro n
    induction n with
    | zero => exact ⟨[], .singleton a, Nat.le_refl 0⟩
    | succ n ih =>
      obtain ⟨chain, hchain, hle⟩ := ih
      obtain ⟨longer, hlonger, hlt⟩ := exists_longer_chain hcycle hchain
      exact ⟨longer, hlonger, Nat.lt_of_le_of_lt hle hlt⟩
  obtain ⟨chain, hchain, hle⟩ := hlong bound
  exact absurd (hbound chain hchain) (Nat.not_lt_of_le hle)

/-! ## Equations along a relation -/

section Solution

variable {β : Type v} {F : (α → β) → α → β}

/-- `F` explains a function at a node by its values at the successors. -/
def Local (R : α → α → Prop) (F : (α → β) → α → β) : Prop :=
  ∀ f g a, (∀ b, R a b → f b = g b) → F f a = F g a

/-- An equation along a relation whose ranks fall has a solution. -/
theorem exists_solution [Nonempty β] (rank : α → Nat) (hrank : ∀ a b, R a b → rank b < rank a)
    (hlocal : Local R F) : ∃ f, ∀ a, f a = F f a := by
  classical
  obtain ⟨default⟩ := ‹Nonempty β›
  have hwf : WellFounded fun b a => R a b := Subrelation.wf (hrank _ _) (measure rank).wf
  -- the solution is taken from the values at the successors
  let f := hwf.fix fun a below => F (fun b => if h : R a b then below b h else default) a
  refine ⟨f, fun a => ?_⟩
  have hfix : f a = F (fun b => if _ : R a b then f b else default) a := hwf.fix_eq _ a
  exact hfix.trans (hlocal _ _ a fun b hb => dif_pos hb)

/-- It has only one. -/
theorem solution_unique (rank : α → Nat) (hrank : ∀ a b, R a b → rank b < rank a)
    (hlocal : Local R F) {f g : α → β} (hf : ∀ a, f a = F f a) (hg : ∀ a, g a = F g a) : f = g := by
  funext a
  induction hr : rank a using Nat.strong_induction_on generalizing a with
  | _ r ih =>
    rw [hf, hg]
    exact hlocal f g a fun b hb => ih (rank b) (hr ▸ hrank a b hb) b rfl

end Solution

end Acyclicity
