import Craqle.Lib.Leading
import Mathlib.Data.Set.Finite.Lattice

/-! # Walking a graph of ancestors, greatest first

Every node has parents of lower rank. A walk keeps the nodes that it still has to visit and those
that it has visited; it takes the greatest pending node, visits it and adds its parents
(`Walk.step`). What is left to visit are the pending nodes and their ancestors, less the visited
ones (`remaining`), and the walk visits them in the order of their rank. When the walk stops, its
pending nodes are starting points for what is left (`Walk.remaining_eq`): nothing that was visited
is an ancestor of them, so the visited nodes can be forgotten.
-/

namespace Ancestry

open Relation (ReflTransGen)

variable {ι κ : Type*} [LinearOrder κ] {parents : ι → List ι} {rank : ι → κ}

/-- Some nodes and all their ancestors. -/
def closure (parents : ι → List ι) (starts : List ι) : Set ι :=
  {y | ∃ x ∈ starts, ReflTransGen (fun x p => p ∈ parents x) x y}

variable {starts : List ι}

theorem subset_closure {x : ι} (hx : x ∈ starts) : x ∈ closure parents starts :=
  ⟨x, hx, .refl⟩

theorem closure_mono {starts' : List ι} (h : ∀ x ∈ starts, x ∈ closure parents starts') :
    closure parents starts ⊆ closure parents starts' := by
  rintro y ⟨x, hx, hxy⟩
  obtain ⟨z, hz, hzx⟩ := h x hx
  exact ⟨z, hz, hzx.trans hxy⟩

theorem closure_congr {starts' : List ι} (h : ∀ x, x ∈ starts ↔ x ∈ starts') :
    closure parents starts = closure parents starts' :=
  Set.Subset.antisymm (closure_mono fun x hx => subset_closure ((h x).mp hx))
    (closure_mono fun x hx => subset_closure ((h x).mpr hx))

def Older (parents : ι → List ι) (rank : ι → κ) : Prop :=
  ∀ x, ∀ p ∈ parents x, rank p < rank x

theorem Older.rank_lt (h : Older parents rank) {x y : ι}
    (hxy : ReflTransGen (fun x p => p ∈ parents x) x y) (hne : y ≠ x) : rank y < rank x := by
  induction hxy with
  | refl => exact absurd rfl hne
  | @tail z y hxz hzy ih =>
    by_cases hzx : z = x
    · exact hzx ▸ h z y hzy
    · exact (h z y hzy).trans (ih hzx)

theorem Older.closure_finite [WellFoundedLT κ] (h : Older parents rank) (starts : List ι) :
    (closure parents starts).Finite := by
  have hnode : ∀ x, {y | ReflTransGen (fun x p => p ∈ parents x) x y}.Finite := by
    intro x
    -- on the rank of the node
    induction hr : rank x using WellFoundedLT.induction generalizing x with
    | ind r ih =>
      have hparents : (⋃ p ∈ {p | p ∈ parents x},
          {y | ReflTransGen (fun x p => p ∈ parents x) p y}).Finite := by
        refine Set.Finite.biUnion (List.finite_toSet (parents x)) fun p hp => ?_
        exact ih (rank p) (hr ▸ h x p hp) p rfl
      refine (hparents.insert x).subset fun y hy => ?_
      rcases Relation.ReflTransGen.cases_head hy with rfl | ⟨p, hp, hpy⟩
      · exact Set.mem_insert _ _
      · exact Set.mem_insert_of_mem _ (Set.mem_biUnion (show p ∈ {p | p ∈ parents x} from hp) hpy)
  have hunion : closure parents starts =
      ⋃ x ∈ {x | x ∈ starts}, {y | ReflTransGen (fun x p => p ∈ parents x) x y} := by
    ext y
    simp [closure]
  rw [hunion]
  exact Set.Finite.biUnion (List.finite_toSet starts) fun x _ => hnode x

/-- What a walk has left to visit. -/
def remaining (parents : ι → List ι) (pending seen : List ι) : Set ι :=
  closure parents pending \ {x | x ∈ seen}

/-- A walk under way: the parents of visited nodes are visited or pending, and nothing pending is
above a visited node. -/
structure Walk (parents : ι → List ι) (rank : ι → κ) (pending seen : List ι) : Prop where
  covered : ∀ x ∈ seen, ∀ p ∈ parents x, p ∈ seen ∨ p ∈ pending
  above : ∀ x ∈ seen, ∀ y ∈ pending, rank y ≤ rank x

namespace Walk

variable {pending pending' seen next : List ι} {x : ι}

theorem start (pending : List ι) : Walk parents rank pending [] :=
  ⟨nofun, nofun⟩

/-- Ancestors of visited nodes are visited or left to visit. -/
theorem mem_closure (h : Walk parents rank pending seen) {y : ι}
    (hxy : ReflTransGen (fun x p => p ∈ parents x) x y) (hx : x ∈ seen) (hy : y ∉ seen) :
    y ∈ closure parents pending := by
  induction hxy using ReflTransGen.head_induction_on with
  | refl => exact absurd hx hy
  | @head x p hxp hpy ih =>
    rcases h.covered x hx p hxp with hp | hp
    · exact ih hp
    · exact ⟨p, hp, hpy⟩

/-- Visited nodes that are still pending can be dropped. -/
theorem shrink (h : Walk parents rank pending seen) (hsub : ∀ y ∈ pending', y ∈ pending)
    (hkept : ∀ y ∈ pending, y ∈ pending' ∨ y ∈ seen) :
    Walk parents rank pending' seen ∧
      remaining parents pending' seen = remaining parents pending seen := by
  have hwalk : Walk parents rank pending' seen := by
    refine ⟨fun x hx p hp => ?_, fun x hx y hy => h.above x hx y (hsub y hy)⟩
    rcases h.covered x hx p hp with hp | hp
    · exact .inl hp
    · exact (hkept p hp).symm
  refine ⟨hwalk, Set.Subset.antisymm ?_ ?_⟩
  · rintro y ⟨hy, hseen⟩
    exact ⟨closure_mono (fun z hz => subset_closure (hsub z hz)) hy, hseen⟩
  · rintro y ⟨⟨z, hz, hzy⟩, hseen⟩
    rcases hkept z hz with hz | hz
    · exact ⟨⟨z, hz, hzy⟩, hseen⟩
    · exact ⟨hwalk.mem_closure hzy hz hseen, hseen⟩

variable (holder : Older parents rank)
include holder

/-- The greatest pending node is the greatest of all that is left. -/
theorem leading_singleton (hinj : Function.Injective rank) (hx : x ∈ pending) (hfresh : x ∉ seen)
    (hgreatest : ∀ y ∈ pending, rank y ≤ rank x) :
    Leading (fun y => OrderDual.toDual (rank y)) (remaining parents pending seen) [x] := by
  refine Leading.singleton ⟨subset_closure hx, hfresh⟩ ?_
  rintro y ⟨⟨z, hz, hzy⟩, _⟩ hne
  have hle : rank z ≤ rank x := hgreatest z hz
  rw [OrderDual.toDual_lt_toDual]
  by_cases hyz : y = z
  · rw [hyz] at hne ⊢
    exact lt_of_le_of_ne hle fun heq => hne (hinj heq)
  · exact (holder.rank_lt hzy hyz).trans_le hle

/-- Visit the greatest pending node: its parents become pending, nodes that are visited may be
dropped. -/
theorem step (h : Walk parents rank pending seen) (hx : x ∈ pending)
    (hgreatest : ∀ y ∈ pending, rank y ≤ rank x)
    (hnew : ∀ y ∈ pending', y ∈ pending ∨ y ∈ parents x)
    (hkept : ∀ y ∈ pending, y ∈ pending' ∨ y ∈ x :: seen)
    (hparents : ∀ p ∈ parents x, p ∈ pending' ∨ p ∈ x :: seen) :
    Walk parents rank pending' (x :: seen) ∧
      remaining parents pending' (x :: seen) = remaining parents pending seen \ {x} := by
  have hwalk : Walk parents rank pending' (x :: seen) := by
    refine ⟨fun y hy p hp => ?_, fun y hy z hz => ?_⟩
    · rcases List.mem_cons.mp hy with rfl | hy
      · exact (hparents p hp).symm
      · rcases h.covered y hy p hp with hp | hp
        · exact .inl (List.mem_cons_of_mem _ hp)
        · exact (hkept p hp).symm
    · have hzx : rank z ≤ rank x := by
        rcases hnew z hz with hz | hz
        · exact hgreatest z hz
        · exact (holder x z hz).le
      rcases List.mem_cons.mp hy with rfl | hy
      · exact hzx
      · exact hzx.trans (h.above y hy x hx)
  refine ⟨hwalk, Set.Subset.antisymm ?_ ?_⟩
  · rintro y ⟨hy, hnot⟩
    obtain ⟨hyx, hseen⟩ : y ≠ x ∧ y ∉ seen := by simpa using hnot
    refine ⟨⟨closure_mono (fun z hz => ?_) hy, hseen⟩, hyx⟩
    rcases hnew z hz with hz | hz
    · exact subset_closure hz
    · exact ⟨x, hx, .single hz⟩
  · rintro y ⟨⟨⟨z, hz, hzy⟩, hseen⟩, hyx⟩
    have hnot : y ∉ x :: seen := by simpa using ⟨hyx, hseen⟩
    refine ⟨?_, hnot⟩
    rcases hkept z hz with hz | hz
    · exact ⟨z, hz, hzy⟩
    · exact hwalk.mem_closure hzy hz hnot

/-- Where a walk stops, the pending nodes that are not visited are where to go on from. -/
theorem remaining_eq (hinj : Function.Injective rank) (h : Walk parents rank pending seen)
    (hnext : ∀ y, y ∈ next ↔ y ∈ pending ∧ y ∉ seen) :
    closure parents next = remaining parents pending seen := by
  obtain ⟨_, hremaining⟩ := h.shrink (fun y hy => ((hnext y).mp hy).1) fun y hy => by
    by_cases hseen : y ∈ seen
    · exact .inr hseen
    · exact .inl ((hnext y).mpr ⟨hy, hseen⟩)
  rw [← hremaining]
  refine (sdiff_eq_left.mpr (Set.disjoint_left.mpr ?_)).symm
  rintro y ⟨z, hz, hzy⟩ hy
  obtain ⟨hpending, hfresh⟩ := (hnext z).mp hz
  -- a visited node is not below a pending one
  have hlt : rank z < rank y :=
    lt_of_le_of_ne (h.above y hy z hpending) fun heq => hfresh (hinj heq ▸ hy)
  by_cases hyz : y = z
  · exact hlt.ne (congrArg rank hyz).symm
  · exact hlt.asymm (holder.rank_lt hzy hyz)

end Walk

end Ancestry
