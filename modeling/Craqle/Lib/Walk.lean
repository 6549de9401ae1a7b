import Craqle.Lib.Ordered
import Craqle.Lib.Stateful
import Craqle.Lib.Updates
import Mathlib

/-! # Capped walks along relations

A walker collects the nodes that a relation relates to a node. It threads a state (what the walk
has spent so far), it can fail, and it may stop early once it has as many nodes as a cap asks for.
Walkers are composed as the relations are: one after the other (`sequence`), side by side
(`collect`), or again and again until nothing new is found (`close`).

Two questions are asked of a walk. Without a cap, does it collect exactly the related nodes
(`Finds`)? With a cap, does it collect as many of them as the cap asks for, or all if there are
fewer (`Counts`)? The second answer can be no even if the first is yes: the parts of a compound
walk share the cap, and a node that two parts find is counted against it twice.

A part is harmless in two cases. Either nothing of it can be missed, because the nodes collected
before it reach the cap or have all of its nodes (`Spent`), or none of its nodes can take the place
of another one, because none is collected already or what is left of the cap has a place for each
(`Fits`). A compound walk keeps count when all its parts are harmless, each after those before it
(`counts_collect`).
-/

namespace Walk

open Fallible Ordered
open Std (ExtTreeSet TransCmp LawfulEqCmp)
open Relation (ReflTransGen)

variable {α ε σ : Type} {cmp : α → α → Ordering} [TransCmp cmp]

/-- A walk from a fixed node: with a cap and a state it collects nodes. -/
abbrev Probe (α ε σ : Type) (cmp : α → α → Ordering):=
  Option Nat → σ → Except ε (ExtTreeSet α cmp × σ)

abbrev Walker (α ε σ : Type) (cmp : α → α → Ordering):= α → Probe α ε σ cmp

/-! ## Sets of collected nodes -/

def reached (cap : Option Nat) (out : ExtTreeSet α cmp) : Bool :=
  cap.any fun limit => decide (limit ≤ out.size)

def remaining (cap : Option Nat) (out : ExtTreeSet α cmp) : Option Nat :=
  cap.map (· - out.size)

def extend (out vs : ExtTreeSet α cmp) : ExtTreeSet α cmp :=
  vs.toList.foldl (fun out v => out.insert v) out

omit [TransCmp cmp] in
theorem reached_some {k : Nat} {out : ExtTreeSet α cmp} :
    reached (some k) out = true ↔ k ≤ out.size := by
  simp [reached]

section Sets

variable [LawfulEqCmp cmp] {out vs : ExtTreeSet α cmp}

theorem mem_foldl_insert {l : List α} {out : ExtTreeSet α cmp} {v : α} :
    v ∈ l.foldl (fun out v => out.insert v) out ↔ v ∈ out ∨ v ∈ l := by
  rw [Updates.foldl_iff_exists (P := fun out => v ∈ out) (Q := fun x => v = x)
    fun out x => by rw [mem_insert, or_comm]]
  simp

theorem mem_extend {v : α} : v ∈ extend out vs ↔ v ∈ out ∨ v ∈ vs := by
  rw [extend, mem_foldl_insert, ExtTreeSet.mem_toList]

theorem size_extend (hnew : ∀ v ∈ vs, v ∉ out) : (extend out vs).size = out.size + vs.size := by
  have hperm : (extend out vs).toList.Perm (out.toList ++ vs.toList) := by
    refine (List.perm_ext_iff_of_nodup (nodup_toList _) ?_).mpr fun v => by simp [mem_extend]
    refine (nodup_toList out).append (nodup_toList vs) fun v hout hvs => ?_
    exact hnew v (ExtTreeSet.mem_toList.mp hvs) (ExtTreeSet.mem_toList.mp hout)
  simpa using hperm.length_eq

/-- A set is at least as large as a list of different members. -/
theorem length_le_size {l : List α} (hl : l.Nodup) (hmem : ∀ v ∈ l, v ∈ out) :
    l.length ≤ out.size := by
  have hsub : l ⊆ out.toList := fun v hv => ExtTreeSet.mem_toList.mpr (hmem v hv)
  have hle := (List.Nodup.subperm hl hsub).length_le
  rwa [ExtTreeSet.length_toList] at hle

end Sets

/-! ## What is asked of a walk -/

/-- The walk collects nodes of the set, and without a cap all of them. -/
structure Finds (probe : Probe α ε σ cmp) (S : Set α) : Prop where
  sound : ∀ {cap st out st'}, probe cap st = .ok (out, st') → ∀ v ∈ out, v ∈ S
  complete : ∀ {st out st'}, probe none st = .ok (out, st') → ∀ v ∈ S, v ∈ out

/-- With the cap `k` the walk collects as many nodes as the cap asks for, or the whole set. -/
def Counts (k : Nat) (probe : Probe α ε σ cmp) (S : Set α) : Prop :=
  ∀ ⦃st out st'⦄, probe (some k) st = .ok (out, st') → k ≤ out.size ∨ ∀ v ∈ S, v ∈ out

/-- A walk that stops only when it has reached the cap, or has collected the whole set. -/
def Exhausts (probe : Probe α ε σ cmp) (S : Set α) : Prop :=
  ∀ ⦃cap st out st'⦄, probe cap st = .ok (out, st') →
    (∀ v ∈ out, v ∈ S) ∧ (reached cap out = true ∨ ∀ v ∈ S, v ∈ out)

variable {probe : Probe α ε σ cmp} {S S' : Set α} {k : Nat}

theorem Exhausts.finds (h : Exhausts probe S) : Finds probe S where
  sound hrun := (h hrun).1
  complete hrun := by
    rcases (h hrun).2 with hcap | hall
    · cases hcap
    · exact hall

theorem Exhausts.counts (h : Exhausts probe S) : Counts k probe S := fun _ _ _ hrun =>
  (h hrun).2.imp_left reached_some.mp

/-- The same walk, asked about a set with the same members. -/
theorem Finds.congr (h : Finds probe S) (heq : ∀ v, v ∈ S' ↔ v ∈ S) : Finds probe S' :=
  Set.ext heq ▸ h

theorem Counts.congr (h : Counts k probe S) (heq : ∀ v, v ∈ S' ↔ v ∈ S) : Counts k probe S' :=
  Set.ext heq ▸ h

/-! ## A cap of zero -/

/-- Nothing is walked when no node is asked for. -/
def guarded (w : Walker α ε σ cmp) : Walker α ε σ cmp := fun focus cap st =>
  if cap = some 0 then .ok (∅, st) else w focus cap st

theorem Finds.guarded {w : Walker α ε σ cmp} {focus : α} {S : Set α} (h : Finds (w focus) S) :
    Finds (guarded w focus) S where
  sound {cap st out st'} hrun := by
    simp only [Walk.guarded] at hrun
    split at hrun
    · cases hrun
      intro v hv
      simp at hv
    · exact h.sound hrun
  complete hrun := h.complete hrun

theorem Counts.guarded {w : Walker α ε σ cmp} {focus : α} {S : Set α} {k : Nat}
    (h : Counts k (w focus) S) : Counts k (Walk.guarded w focus) S := by
  intro st out st' hrun
  simp only [Walk.guarded] at hrun
  split at hrun
  · next hzero =>
    cases hzero
    exact .inl (Nat.zero_le _)
  · exact h hrun

/-! ## One list of nodes -/

/-- Insert the nodes of a list one by one, each at a cost. -/
def gather (charge : σ → Except ε σ) (cap : Option Nat) :
    List α → ExtTreeSet α cmp → σ → Except ε (ExtTreeSet α cmp × σ)
  | [], out, st => .ok (out, st)
  | v :: vs, out, st => do
      let st ← charge st
      let out := out.insert v
      if reached cap out then .ok (out, st) else gather charge cap vs out st

theorem gather_eq_ok [LawfulEqCmp cmp] {charge : σ → Except ε σ} {cap : Option Nat} {vs : List α}
    {out res : ExtTreeSet α cmp} {st st' : σ} (h : gather charge cap vs out st = .ok (res, st')) :
    (∀ v ∈ res, v ∈ out ∨ v ∈ vs) ∧
      (reached cap res = true ∨ ∀ v, v ∈ out ∨ v ∈ vs → v ∈ res) := by
  induction vs generalizing out st with
  | nil =>
    cases h
    exact ⟨fun v hv => .inl hv, .inr fun v hv => hv.resolve_right List.not_mem_nil⟩
  | cons x vs ih =>
    obtain ⟨st₁, _, hrest⟩ := bind_eq_ok.mp h
    have hnode : ∀ v, v ∈ out.insert x ∨ v ∈ vs ↔ v ∈ out ∨ v ∈ x :: vs := by
      intro v
      rw [mem_insert, List.mem_cons, or_comm (a := v = x), or_assoc]
    simp only at hrest
    split at hrest
    · next hcap =>
      cases hrest
      exact ⟨fun v hv => (hnode v).mp (.inl hv), .inl hcap⟩
    · obtain ⟨hsound, hstop⟩ := ih hrest
      refine ⟨fun v hv => (hnode v).mp (hsound v hv), hstop.imp_right fun hall v hv => ?_⟩
      exact hall v ((hnode v).mpr hv)

theorem exhausts_gather [LawfulEqCmp cmp] (charge : σ → Except ε σ) (vs : List α) :
    Exhausts (fun cap st => gather charge cap vs (∅ : ExtTreeSet α cmp) st) {v | v ∈ vs} := by
  intro cap st out st' hrun
  obtain ⟨hsound, hstop⟩ := gather_eq_ok hrun
  refine ⟨fun v hv => (hsound v hv).resolve_left (by simp), hstop.imp_right fun hall v hv => ?_⟩
  exact hall v (.inr hv)

/-! ## Side by side -/

/-- Run the walks one after the other under one cap, each with what the earlier ones left of it,
and stop when it is reached. -/
def collect (cap : Option Nat) : List (Probe α ε σ cmp) → ExtTreeSet α cmp → σ →
    Except ε (ExtTreeSet α cmp × σ)
  | [], out, st => .ok (out, st)
  | probe :: probes, out, st => do
      let (vs, st) ← probe (remaining cap out) st
      let out := extend out vs
      if reached cap out then .ok (out, st) else collect cap probes out st

section Collect

variable [LawfulEqCmp cmp] {probes : List (Probe α ε σ cmp)} {sets : List (Set α)}
  {out res : ExtTreeSet α cmp} {st st' : σ} {cap : Option Nat} {j : Nat}

section

variable (hfinds : List.Forall₂ Finds probes sets)
include hfinds

theorem sound_collect (h : collect cap probes out st = .ok (res, st')) :
    ∀ v ∈ res, v ∈ out ∨ ∃ S ∈ sets, v ∈ S := by
  induction hfinds generalizing out st with
  | nil =>
    cases h
    exact fun v hv => .inl hv
  | @cons probe S probes sets hprobe _ ih =>
    obtain ⟨⟨vs, st₁⟩, hrun, hrest⟩ := bind_eq_ok.mp h
    have hext : ∀ v ∈ extend out vs, v ∈ out ∨ ∃ S' ∈ S :: sets, v ∈ S' := fun v hv =>
      (mem_extend.mp hv).imp_right fun hv => ⟨S, List.mem_cons_self, hprobe.sound hrun v hv⟩
    simp only at hrest
    split at hrest
    · cases hrest
      exact hext
    · intro v hv
      rcases ih hrest v hv with hv | ⟨S', hS', hv⟩
      · exact hext v hv
      · exact .inr ⟨S', List.mem_cons_of_mem _ hS', hv⟩

theorem complete_collect (h : collect none probes out st = .ok (res, st')) :
    ∀ v, (v ∈ out ∨ ∃ S ∈ sets, v ∈ S) → v ∈ res := by
  induction hfinds generalizing out st with
  | nil =>
    cases h
    rintro v (hv | ⟨S, hS, -⟩)
    · exact hv
    · cases hS
  | @cons probe S probes sets hprobe _ ih =>
    obtain ⟨⟨vs, st₁⟩, hrun, hrest⟩ := bind_eq_ok.mp h
    simp only [reached, Option.any_none, Bool.false_eq_true, if_false] at hrest
    rintro v (hv | ⟨S', hS', hv⟩)
    · exact ih hrest v (.inl (mem_extend.mpr (.inl hv)))
    · rcases List.mem_cons.mp hS' with rfl | hS'
      · exact ih hrest v (.inl (mem_extend.mpr (.inr (hprobe.complete hrun v hv))))
      · exact ih hrest v (.inr ⟨S', hS', hv⟩)

theorem finds_collect :
    Finds (fun cap st => collect cap probes ∅ st) {v | ∃ S ∈ sets, v ∈ S} where
  sound hrun v hv := (sound_collect hfinds hrun v hv).resolve_left (by simp)
  complete hrun v hv := complete_collect hfinds hrun v (.inr hv)

end

end Collect

section Fair

variable [LawfulEqCmp cmp] {U V : Set α} {out vs : ExtTreeSet α cmp}

/-- Nothing of `V` can be missed once `U` is collected: `U` reaches the cap, or has all of `V`. -/
def Spent (k : Nat) (U V : Set α) : Prop := k ≤ U.encard ∨ V ⊆ U

/-- No node of `V` can take the place of another one once `U` is collected: none of them is in `U`,
or what is left of the cap has a place for each. -/
def Fits (k : Nat) (U V : Set α) : Prop := Disjoint U V ∨ U.encard + V.encard ≤ k

theorem encard_mem (out : ExtTreeSet α cmp) : {v | v ∈ out}.encard = out.size := by
  classical
  have hset : {v | v ∈ out} = (out.toList.toFinset : Set α) := by
    ext v
    simp
  rw [hset, Set.encard_coe_eq_coe_finsetCard, List.toFinset_card_of_nodup (nodup_toList out),
    ExtTreeSet.length_toList]

/-- A set with no more nodes than were found of it is found. -/
theorem all_of_encard_le (hsound : ∀ v ∈ vs, v ∈ V) (hle : V.encard ≤ vs.size) :
    ∀ v ∈ V, v ∈ vs := by
  rw [← encard_mem] at hle
  have hfinite : {v | v ∈ vs}.Finite := Set.finite_of_encard_eq_coe (encard_mem vs)
  exact (hfinite.eq_of_subset_of_encard_le hsound hle).ge

/-- **One part**: what a harmless part adds to all that is found before it reaches the cap, or it is
all there is. -/
theorem extend_cases (hsound : ∀ v ∈ vs, v ∈ V)
    (hpart : Spent k {v | v ∈ out} V ∨
      (k - out.size ≤ vs.size ∨ ∀ v ∈ V, v ∈ vs) ∧ Fits k {v | v ∈ out} V) :
    k ≤ (extend out vs).size ∨ ∀ v ∈ V, v ∈ extend out vs := by
  have hle : out.size ≤ (extend out vs).size := by
    have hmem : ∀ v ∈ out.toList, v ∈ extend out vs := fun v hv =>
      mem_extend.mpr (.inl (ExtTreeSet.mem_toList.mp hv))
    have h := length_le_size (nodup_toList out) hmem
    rwa [ExtTreeSet.length_toList] at h
  rcases hpart with (hreached | hall) | ⟨hcap | hall, hfits⟩
  · rw [encard_mem, Nat.cast_le] at hreached
    exact .inl (hreached.trans hle)
  · exact .inr fun v hv => mem_extend.mpr (.inl (hall hv))
  · rcases hfits with hdisjoint | hroom
    · have hsize := size_extend fun v hv hout =>
        Set.disjoint_left.mp hdisjoint hout (hsound v hv)
      exact .inl (by omega)
    · -- as many as the cap leaves room for are all
      have hall : V.encard ≤ vs.size := by
        rw [encard_mem] at hroom
        have hV : V.encard ≤ (k - out.size : Nat) := by
          rw [ENat.natCast_sub]
          exact ENat.le_sub_of_add_le_left (ENat.natCast_ne_top _) hroom
        exact hV.trans (Nat.cast_le.mpr hcap)
      exact .inr fun v hv => mem_extend.mpr (.inr (all_of_encard_le hsound hall v hv))
  · exact .inr fun v hv => mem_extend.mpr (.inr (hall v hv))

variable {β : Type} {probe : β → Probe α ε σ cmp} {S : β → Set α} {xs : List β}

/-- The nodes of the sets of a list. -/
def Among (S : β → Set α) (xs : List β) : Set α := {v | ∃ x ∈ xs, v ∈ S x}

/-- The part is harmless after others that have collected `U`, and keeps count with what they leave
of the cap. -/
def Harmless (k : Nat) (U : Set α) (probe : Probe α ε σ cmp) (V : Set α) : Prop :=
  Spent k U V ∨ Counts (k - U.ncard) probe V ∧ Fits k U V

theorem counts_collect_from (hfinds : ∀ x, Finds (probe x) (S x))
    (hparts : ∀ before x after, xs = before ++ x :: after →
      Harmless k (Among S before) (probe x) (S x))
    {done todo : List β} (hxs : xs = done ++ todo) (hout : ∀ v, v ∈ out ↔ v ∈ Among S done)
    {st st' : σ} {res : ExtTreeSet α cmp}
    (hrun : collect (some k) (todo.map probe) out st = .ok (res, st')) :
    k ≤ res.size ∨ ∀ v ∈ Among S xs, v ∈ res := by
  induction todo generalizing done out st with
  | nil =>
    cases hrun
    rw [hxs, List.append_nil]
    exact .inr fun v hv => (hout v).mpr hv
  | cons x todo ih =>
    rw [List.map_cons] at hrun
    obtain ⟨⟨vs, st₁⟩, hprobe, hrest⟩ := bind_eq_ok.mp hrun
    have hU : Among S done = {v | v ∈ out} := Set.ext fun v => (hout v).symm
    have hncard : (Among S done).ncard = out.size := by
      rw [Set.ncard_def, hU, encard_mem, ENat.toNat_natCast]
    have hcases := extend_cases (k := k) ((hfinds x).sound hprobe) (by
      have hpart := hparts done x todo hxs
      rw [Harmless, hncard, hU] at hpart
      exact hpart.imp_right fun ⟨hcounts, hfits⟩ => ⟨hcounts hprobe, hfits⟩)
    simp only at hrest
    split at hrest
    · next hcap =>
      cases hrest
      exact .inl (reached_some.mp hcap)
    · next hcap =>
      -- the cap is not reached, so all that the parts so far find is collected
      have hall := hcases.resolve_left fun hle => hcap (reached_some.mpr hle)
      refine ih (hxs.trans (List.append_cons done x todo)) (fun v => ?_) hrest
      rw [mem_extend, hout]
      constructor
      · rintro (⟨y, hy, hv⟩ | hv)
        · exact ⟨y, List.mem_append_left _ hy, hv⟩
        · exact ⟨x, by simp, (hfinds x).sound hprobe v hv⟩
      · rintro ⟨y, hy, hv⟩
        rcases List.mem_append.mp hy with hy | hy
        · exact .inl ⟨y, hy, hv⟩
        · obtain rfl := List.mem_singleton.mp hy
          exact (mem_extend.mp (hall v hv)).imp_left (hout v).mp

/-- Walks side by side keep count when each one is harmless after those before it. -/
theorem counts_collect (hfinds : ∀ x, Finds (probe x) (S x))
    (hparts : ∀ before x after, xs = before ++ x :: after →
      Harmless k (Among S before) (probe x) (S x)) :
    Counts k (fun cap st => collect cap (xs.map probe) ∅ st) (Among S xs) := fun _ _ _ hrun =>
  counts_collect_from hfinds hparts (List.nil_append xs).symm (by simp [Among]) hrun

end Fair

/-! ## From every node of a set -/

/-- Walk on from every node of a set. -/
def spread (w : Walker α ε σ cmp) (frontier : ExtTreeSet α cmp) : Probe α ε σ cmp := fun cap st =>
  collect cap (frontier.toList.map w) ∅ st

section Spread

variable [LawfulEqCmp cmp] {w : Walker α ε σ cmp} {R : α → α → Prop} {frontier : ExtTreeSet α cmp}

theorem forall₂_map_toList {P : Probe α ε σ cmp → Set α → Prop}
    (h : ∀ n ∈ frontier, P (w n) {v | R n v}) :
    List.Forall₂ P (frontier.toList.map w) (frontier.toList.map fun n => {v | R n v}) := by
  rw [List.forall₂_map_left_iff, List.forall₂_map_right_iff, List.forall₂_same]
  exact fun n hn => h n (ExtTreeSet.mem_toList.mp hn)

theorem mem_spread {v : α} :
    (∃ S ∈ frontier.toList.map fun n => {v | R n v}, v ∈ S) ↔ ∃ n ∈ frontier, R n v := by
  constructor
  · rintro ⟨S, hS, hv⟩
    obtain ⟨n, hn, rfl⟩ := List.mem_map.mp hS
    exact ⟨n, ExtTreeSet.mem_toList.mp hn, hv⟩
  · rintro ⟨n, hn, hv⟩
    exact ⟨_, List.mem_map.mpr ⟨n, ExtTreeSet.mem_toList.mpr hn, rfl⟩, hv⟩

theorem finds_spread (hfinds : ∀ n, Finds (w n) {v | R n v}) :
    Finds (spread w frontier) {v | ∃ n ∈ frontier, R n v} :=
  Finds.congr (finds_collect (forall₂_map_toList fun n _ => hfinds n)) fun _ => mem_spread.symm

/-- A step keeps count when from each node it is harmless after the nodes before it. -/
theorem counts_spread (hfinds : ∀ n, Finds (w n) {v | R n v})
    (hparts : ∀ n ∈ frontier,
      Harmless k {v | ∃ m ∈ frontier, cmp m n = .lt ∧ R m v} (w n) {v | R n v}) :
    Counts k (spread w frontier) {v | ∃ n ∈ frontier, R n v} := by
  have hall : Among (fun n => {v | R n v}) frontier.toList = {v | ∃ n ∈ frontier, R n v} := by
    simp [Among]
  rw [← hall]
  refine counts_collect hfinds fun before n after hsplit => ?_
  have hn : n ∈ frontier := ExtTreeSet.mem_toList.mp (by simp [hsplit])
  -- the nodes listed before a node are the smaller ones
  have hbefore : ∀ m, m ∈ before ↔ m ∈ frontier ∧ cmp m n = .lt := by
    have hordered : (before ++ n :: after).Pairwise fun a b => cmp a b = .lt :=
      hsplit ▸ frontier.ordered_toList
    obtain ⟨-, hafter, hacross⟩ := List.pairwise_append.mp hordered
    intro m
    constructor
    · intro hm
      refine ⟨ExtTreeSet.mem_toList.mp ?_, hacross m hm n List.mem_cons_self⟩
      rw [hsplit]
      exact List.mem_append_left _ hm
    · rintro ⟨hm, hlt⟩
      rw [← ExtTreeSet.mem_toList, hsplit, List.mem_append, List.mem_cons] at hm
      rcases hm with hm | rfl | hm
      · exact hm
      · exact absurd hlt (by simp [Std.ReflCmp.compare_self])
      · have hgt := Std.OrientedCmp.gt_of_lt ((List.pairwise_cons.mp hafter).1 m hm)
        exact absurd (hgt.symm.trans hlt) (by simp)
  have hset : Among (fun n => {v | R n v}) before = {v | ∃ m ∈ frontier, cmp m n = .lt ∧ R m v} := by
    simp [Among, hbefore, and_assoc]
  rw [hset]
  exact hparts n hn

end Spread

/-! ## One after the other -/

/-- The composition of a list of relations. -/
def Linked : List (α → α → Prop) → α → α → Prop
  | [], a, b => a = b
  | R :: Rs, a, b => ∃ c, R a c ∧ Linked Rs c b

theorem linked_concat {Rs : List (α → α → Prop)} {R : α → α → Prop} {a b : α} :
    Linked (Rs ++ [R]) a b ↔ ∃ c, Linked Rs a c ∧ R c b := by
  induction Rs generalizing a with
  | nil => simp [Linked]
  | cons R' Rs ih =>
    simp only [List.cons_append, Linked, ih]
    constructor
    · rintro ⟨c, hR', d, hchain, hR⟩
      exact ⟨d, ⟨c, hR', hchain⟩, hR⟩
    · rintro ⟨d, ⟨c, hR', hchain⟩, hR⟩
      exact ⟨c, hR', d, hchain, hR⟩

/-- Walking the relations backwards in the opposite order is walking the composition backwards. -/
theorem linked_reverse {Rs : List (α → α → Prop)} {a b : α} :
    Linked (Rs.reverse.map flip) a b ↔ Linked Rs b a := by
  induction Rs generalizing b with
  | nil => simp [Linked, eq_comm]
  | cons R Rs ih =>
    rw [List.reverse_cons, List.map_append, List.map_singleton, linked_concat]
    simp only [Linked, ih, flip]
    exact exists_congr fun c => and_comm

/-- Walk on from all collected nodes, one walker after the other. Only the last one is capped, and
nothing is walked from no node. -/
def sequence (cap : Option Nat) : List (Walker α ε σ cmp) → ExtTreeSet α cmp → σ →
    Except ε (ExtTreeSet α cmp × σ)
  | [], frontier, st => .ok (frontier, st)
  | w :: ws, frontier, st => do
      let (next, st) ← spread w frontier (if ws.isEmpty then cap else none) st
      if next.isEmpty then .ok (next, st) else sequence cap ws next st

section Sequence

variable [LawfulEqCmp cmp] {ws : List (Walker α ε σ cmp)} {w : Walker α ε σ cmp}
  {Rs : List (α → α → Prop)} {R : α → α → Prop} {frontier : ExtTreeSet α cmp} {cap : Option Nat}

omit [LawfulEqCmp cmp] in
theorem spread_empty {st : σ} :
    spread w (∅ : ExtTreeSet α cmp) cap st = .ok (∅, st) := by
  have hnil : (∅ : ExtTreeSet α cmp).toList = [] :=
    List.eq_nil_iff_length_eq_zero.mpr (by rw [ExtTreeSet.length_toList, ExtTreeSet.size_empty])
  rw [spread, hnil]
  rfl

omit [LawfulEqCmp cmp] in
theorem sequence_empty {st : σ} :
    sequence cap ws (∅ : ExtTreeSet α cmp) st = .ok (∅, st) := by
  cases ws with
  | nil => rfl
  | cons w ws => simp [sequence, spread_empty, bind, Except.bind]

omit [LawfulEqCmp cmp] in
/-- Stopping at an empty set is only a shortcut. -/
theorem sequence_cons {st : σ} :
    sequence cap (w :: ws) frontier st =
      (spread w frontier (if ws.isEmpty then cap else none) st >>= fun next =>
        sequence cap ws next.1 next.2) := by
  rw [sequence]
  refine bind_congr fun next => ?_
  by_cases hempty : next.1.isEmpty = true
  · simp only [hempty, if_true]
    rw [ExtTreeSet.isEmpty_iff.mp hempty, sequence_empty]
  · simp [hempty]

omit [LawfulEqCmp cmp] in
theorem sequence_concat {st : σ} :
    sequence cap (ws ++ [w]) frontier st =
      (sequence none ws frontier st >>= fun next => spread w next.1 cap next.2) := by
  induction ws generalizing frontier st with
  | nil =>
    rw [List.nil_append, sequence_cons]
    simp [sequence, bind, Except.bind]
    cases spread w frontier cap st <;> rfl
  | cons w' ws ih =>
    have hempty : (ws ++ [w]).isEmpty = false := by simp
    rw [List.cons_append, sequence_cons, sequence_cons, hempty, bind_assoc]
    simp only [Bool.false_eq_true, if_false, ite_self]
    exact bind_congr fun next => ih

omit [LawfulEqCmp cmp] in
theorem exhausts_sequence_nil :
    Exhausts (fun (cap : Option Nat) (st : σ) =>
      (sequence cap [] frontier st : Except ε (ExtTreeSet α cmp × σ))) {v | v ∈ frontier} := by
  intro cap st out st' hrun
  cases hrun
  exact ⟨fun v hv => hv, .inr fun v hv => hv⟩

variable (hfinds : List.Forall₂ (fun w R => ∀ n, Finds (w n) {v | R n v}) ws Rs)
include hfinds

theorem finds_sequence :
    Finds (fun cap st => sequence cap ws frontier st) {v | ∃ n ∈ frontier, Linked Rs n v} := by
  induction hfinds generalizing frontier with
  | nil =>
    constructor
    · intro cap st out st' hrun v hv
      cases hrun
      exact ⟨v, hv, rfl⟩
    · rintro st out st' hrun v ⟨n, hn, rfl⟩
      cases hrun
      exact hn
  | @cons w R ws Rs hw _ ih =>
    constructor
    · intro cap st out st' hrun v hv
      rw [sequence_cons] at hrun
      obtain ⟨⟨next, st₁⟩, hnext, hrest⟩ := bind_eq_ok.mp hrun
      obtain ⟨c, hc, hchain⟩ := ih.sound hrest v hv
      obtain ⟨n, hn, hR⟩ := (finds_spread hw).sound hnext c hc
      exact ⟨n, hn, c, hR, hchain⟩
    · rintro st out st' hrun v ⟨n, hn, c, hR, hchain⟩
      rw [sequence_cons, ite_self] at hrun
      obtain ⟨⟨next, st₁⟩, hnext, hrest⟩ := bind_eq_ok.mp hrun
      have hc : c ∈ next := (finds_spread hw).complete hnext c ⟨n, hn, hR⟩
      exact ih.complete hrest v ⟨c, hc, hchain⟩

/-- A sequence keeps count when its last step is harmless from each node it is walked from, after the
nodes before it. -/
theorem counts_sequence_concat (hlast : ∀ n, Finds (w n) {v | R n v})
    (hparts : ∀ n, (∃ f ∈ frontier, Linked Rs f n) →
      Harmless k {v | ∃ m, (∃ f ∈ frontier, Linked Rs f m) ∧ cmp m n = .lt ∧ R m v} (w n)
        {v | R n v}) :
    Counts k (fun cap st => sequence cap (ws ++ [w]) frontier st)
      {v | ∃ n ∈ frontier, Linked (Rs ++ [R]) n v} := by
  intro st out st' hrun
  simp only [sequence_concat] at hrun
  obtain ⟨⟨next, st₁⟩, hnext, hrest⟩ := bind_eq_ok.mp hrun
  have hmem : ∀ n, n ∈ next ↔ ∃ f ∈ frontier, Linked Rs f n := fun n =>
    ⟨(finds_sequence hfinds).sound hnext n, (finds_sequence hfinds).complete hnext n⟩
  have hcounts : Counts k (spread w next) {v | ∃ n ∈ next, R n v} := by
    refine counts_spread hlast fun n hn => ?_
    simp only [hmem]
    exact hparts n ((hmem n).mp hn)
  refine (hcounts hrest).imp_right fun hall v hv => hall v ?_
  obtain ⟨f, hf, hchain⟩ := hv
  obtain ⟨n, hprefix, hR⟩ := linked_concat.mp hchain
  exact ⟨n, (hmem n).mpr ⟨f, hf, hprefix⟩, hR⟩

end Sequence

/-! ## At most once -/

/-- The node itself, and what a walk from it finds. A cap of one is met by the node itself. -/
def optional (w : Walker α ε σ cmp) : Walker α ε σ cmp := fun focus cap st =>
  let out := (∅ : ExtTreeSet α cmp).insert focus
  if cap = some 1 then .ok (out, st)
  else do
    let (vs, st) ← w focus (cap.map (· - 1)) st
    .ok (extend out vs, st)

section Optional

variable [LawfulEqCmp cmp] {w : Walker α ε σ cmp} {focus : α}

omit [LawfulEqCmp cmp] in
theorem size_singleton : ((∅ : ExtTreeSet α cmp).insert focus).size = 1 := by
  simp [ExtTreeSet.size_insert]

theorem finds_optional (h : Finds (w focus) S) :
    Finds (optional w focus) {v | v = focus ∨ v ∈ S} where
  sound {cap st out st'} hrun v hv := by
    simp only [optional] at hrun
    split at hrun
    · cases hrun
      exact .inl (mem_insert_empty.mp hv)
    · obtain ⟨⟨vs, st₁⟩, hwalk, hout⟩ := bind_eq_ok.mp hrun
      cases hout
      rcases mem_extend.mp hv with hv | hv
      · exact .inl (mem_insert_empty.mp hv)
      · exact .inr (h.sound hwalk v hv)
  complete {st out st'} hrun v hv := by
    simp only [optional, reduceCtorEq, if_false] at hrun
    obtain ⟨⟨vs, st₁⟩, hwalk, hout⟩ := bind_eq_ok.mp hrun
    cases hout
    rcases hv with hv | hv
    · exact mem_extend.mpr (.inl (mem_insert_empty.mpr hv))
    · exact mem_extend.mpr (.inr (h.complete hwalk v hv))

theorem counts_optional (h : Finds (w focus) S) (hpart : Harmless k {focus} (w focus) S) :
    Counts k (optional w focus) {v | v = focus ∨ v ∈ S} := by
  intro st out st' hrun
  have hself : {v | v ∈ (∅ : ExtTreeSet α cmp).insert focus} = {focus} := by
    ext v
    exact mem_insert_empty
  simp only [optional, Option.some.injEq, Option.map_some] at hrun
  split at hrun
  · next hone =>
    cases hrun
    rw [size_singleton]
    exact .inl hone.le
  · obtain ⟨⟨vs, st₁⟩, hwalk, hout⟩ := bind_eq_ok.mp hrun
    cases hout
    rw [Harmless, Set.ncard_singleton] at hpart
    refine (extend_cases (h.sound hwalk) ?_).imp_right fun hall v hv => ?_
    · rw [hself, size_singleton]
      exact hpart.imp_right fun ⟨hcounts, hfits⟩ => ⟨hcounts hwalk, hfits⟩
    · rcases hv with hv | hv
      · exact mem_extend.mpr (.inl (mem_insert_empty.mpr hv))
      · exact hall v hv

end Optional

/-! ## Until nothing new is found -/

/-- What a closure has visited, what of it is new in this round, and what it has collected. -/
structure Visit (α : Type) (cmp : α → α → Ordering) where
  visited : ExtTreeSet α cmp
  next : ExtTreeSet α cmp
  output : ExtTreeSet α cmp

def Visit.add (s : Visit α cmp) (v : α) : Visit α cmp :=
  { visited := s.visited.insert v, next := s.next.insert v, output := s.output.insert v }

def visit (cap : Option Nat) : List α → Visit α cmp → Visit α cmp
  | [], s => s
  | v :: vs, s =>
    if v ∈ s.visited then visit cap vs s
    else if reached cap (s.add v).output then s.add v else visit cap vs (s.add v)

/-- Visit what an uncapped walk finds from each node of a list. -/
def layer (w : Walker α ε σ cmp) (cap : Option Nat) :
    List α → Visit α cmp → σ → Except ε (Visit α cmp × σ)
  | [], s, st => .ok (s, st)
  | n :: ns, s, st => do
      let (vs, st) ← w n none st
      let s := visit cap vs.toList s
      if reached cap s.output then .ok (s, st) else layer w cap ns s st

def close (tooDeep : ε) (w : Walker α ε σ cmp) (cap : Option Nat) : Nat →
    Visit α cmp → σ → Except ε (ExtTreeSet α cmp × σ)
  | 0, s, st =>
    if s.next.isEmpty || reached cap s.output then .ok (s.output, st) else .error tooDeep
  | depth + 1, s, st =>
    if s.next.isEmpty || reached cap s.output then .ok (s.output, st)
    else do
      let (s, st) ← layer w cap s.next.toList { s with next := ∅ } st
      close tooDeep w cap depth s st

section Close

variable [LawfulEqCmp cmp] {w : Walker α ε σ cmp} {R : α → α → Prop} {cap : Option Nat}
  {s s' s'' : Visit α cmp} {st st' : σ}

/-- Some new nodes of the set were visited, and nothing else happened. -/
def Visit.Adds (s : Visit α cmp) (S : Set α) (s' : Visit α cmp) : Prop :=
  ∃ new : Set α, (∀ v ∈ new, v ∈ S ∧ v ∉ s.visited) ∧
    (∀ v, v ∈ s'.visited ↔ v ∈ s.visited ∨ v ∈ new) ∧
    (∀ v, v ∈ s'.next ↔ v ∈ s.next ∨ v ∈ new) ∧
    ∀ v, v ∈ s'.output ↔ v ∈ s.output ∨ v ∈ new

omit [LawfulEqCmp cmp] in
theorem Visit.Adds.refl (s : Visit α cmp) (S : Set α) : s.Adds S s :=
  ⟨∅, by simp, by simp, by simp, by simp⟩

theorem Visit.Adds.single {v : α} (hS : v ∈ S) (hnew : v ∉ s.visited) : s.Adds S (s.add v) := by
  have hinsert : ∀ (t : ExtTreeSet α cmp) (x : α), x ∈ t.insert v ↔ x ∈ t ∨ x ∈ ({v} : Set α) := by
    intro t x
    rw [mem_insert, Set.mem_singleton_iff, or_comm]
  refine ⟨{v}, ?_, hinsert _, hinsert _, hinsert _⟩
  rintro x rfl
  exact ⟨hS, hnew⟩

omit [LawfulEqCmp cmp] in
theorem Visit.Adds.trans (h : s.Adds S s') (h' : s'.Adds S s'') : s.Adds S s'' := by
  obtain ⟨new, hnew, hvisited, hnext, houtput⟩ := h
  obtain ⟨new', hnew', hvisited', hnext', houtput'⟩ := h'
  refine ⟨new ∪ new', ?_, ?_, ?_, ?_⟩
  · rintro v (hv | hv)
    · exact hnew v hv
    · exact ⟨(hnew' v hv).1, fun hin => (hnew' v hv).2 ((hvisited v).mpr (.inl hin))⟩
  · exact fun v => by rw [hvisited', hvisited, or_assoc, Set.mem_union]
  · exact fun v => by rw [hnext', hnext, or_assoc, Set.mem_union]
  · exact fun v => by rw [houtput', houtput, or_assoc, Set.mem_union]

omit [LawfulEqCmp cmp] in
theorem Visit.Adds.mono {S' : Set α} (h : s.Adds S s') (hsub : ∀ v ∈ S, v ∈ S') : s.Adds S' s' := by
  obtain ⟨new, hnew, hrest⟩ := h
  exact ⟨new, fun v hv => ⟨hsub v (hnew v hv).1, (hnew v hv).2⟩, hrest⟩

omit [LawfulEqCmp cmp] in
theorem Visit.Adds.mem_visited (h : s.Adds S s') {v : α} (hv : v ∈ s.visited) : v ∈ s'.visited := by
  obtain ⟨_, _, hvisited, _⟩ := h
  exact (hvisited v).mpr (.inl hv)

theorem visit_adds (cap : Option Nat) (vs : List α) (s : Visit α cmp) :
    s.Adds {v | v ∈ vs} (visit cap vs s) ∧
      (reached cap (visit cap vs s).output = true ∨ ∀ v ∈ vs, v ∈ (visit cap vs s).visited) := by
  induction vs generalizing s with
  | nil => exact ⟨.refl s _, .inr (by simp)⟩
  | cons x vs ih =>
    have htail : ∀ v ∈ {v | v ∈ vs}, v ∈ {v | v ∈ x :: vs} := fun v hv => List.mem_cons_of_mem _ hv
    rw [visit]
    split
    · next hx =>
      obtain ⟨hadds, hstop⟩ := ih s
      refine ⟨hadds.mono htail, hstop.imp_right fun hall v hv => ?_⟩
      rcases List.mem_cons.mp hv with rfl | hv
      · exact hadds.mem_visited hx
      · exact hall v hv
    · next hx =>
      have hfirst : s.Adds {v | v ∈ x :: vs} (s.add x) := .single List.mem_cons_self hx
      split
      · next hcap => exact ⟨hfirst, .inl hcap⟩
      obtain ⟨hadds, hstop⟩ := ih (s.add x)
      refine ⟨hfirst.trans (hadds.mono htail), hstop.imp_right fun hall v hv => ?_⟩
      rcases List.mem_cons.mp hv with rfl | hv
      · refine hadds.mem_visited ?_
        exact (mem_insert _ _ _).mpr (.inl rfl)
      · exact hall v hv

theorem layer_adds (hfinds : ∀ n, Finds (w n) {v | R n v}) {ns : List α}
    (h : layer w cap ns s st = .ok (s', st')) :
    s.Adds {v | ∃ n ∈ ns, R n v} s' ∧
      (reached cap s'.output = true ∨ ∀ n ∈ ns, ∀ v, R n v → v ∈ s'.visited) := by
  induction ns generalizing s st with
  | nil =>
    cases h
    exact ⟨.refl _ _, .inr (by simp)⟩
  | cons n ns ih =>
    obtain ⟨⟨vs, st₁⟩, hwalk, hrest⟩ := bind_eq_ok.mp h
    obtain ⟨hvisit, hall⟩ := visit_adds cap vs.toList s
    have hfirst : s.Adds {v | ∃ m ∈ n :: ns, R m v} (visit cap vs.toList s) :=
      hvisit.mono fun v hv => ⟨n, List.mem_cons_self,
        (hfinds n).sound hwalk v (ExtTreeSet.mem_toList.mp hv)⟩
    simp only at hrest
    split at hrest
    · next hcap =>
      cases hrest
      exact ⟨hfirst, .inl hcap⟩
    rename_i hcap
    obtain ⟨hadds, hstop⟩ := ih hrest
    have hlater : ∀ v ∈ {v | ∃ m ∈ ns, R m v}, v ∈ {v | ∃ m ∈ n :: ns, R m v} := by
      rintro v ⟨m, hm, hR⟩
      exact ⟨m, List.mem_cons_of_mem _ hm, hR⟩
    refine ⟨hfirst.trans (hadds.mono hlater), hstop.imp_right fun hrec m hm v hR => ?_⟩
    rcases List.mem_cons.mp hm with rfl | hm
    · have hv : v ∈ vs := (hfinds m).complete hwalk v hR
      exact hadds.mem_visited (hall.resolve_left hcap v (ExtTreeSet.mem_toList.mpr hv))
    · exact hrec m hm v hR

/-- A closure under way from a node: everything visited is reached from it, everything visited
before the last round has its successors visited, and the collected nodes are the visited ones,
the node itself apart if it was not included. -/
structure Closing (R : α → α → Prop) (focus : α) (included : Bool) (s : Visit α cmp) : Prop where
  start : focus ∈ s.visited
  sound : ∀ v ∈ s.visited, ReflTransGen R focus v
  next : ∀ v ∈ s.next, v ∈ s.visited
  output : ∀ v, v ∈ s.output ↔ v ∈ s.visited ∧ (included = true ∨ v ≠ focus)

/-- The visited nodes are closed, those of the last round apart. -/
def Visit.Settled (R : α → α → Prop) (s : Visit α cmp) : Prop :=
  ∀ n ∈ s.visited, n ∉ s.next → ∀ v, R n v → v ∈ s.visited

variable {included : Bool}

/-- One round of a closure. -/
theorem Closing.layer {focus : α} (hinv : Closing R focus included s)
    (hfinds : ∀ n, Finds (w n) {v | R n v})
    (h : layer w cap s.next.toList { s with next := ∅ } st = .ok (s', st')) :
    Closing R focus included s' ∧ (s.Settled R → reached cap s'.output = true ∨ s'.Settled R) := by
  obtain ⟨⟨new, hnew, hvisited, hnext, houtput⟩, hstop⟩ := layer_adds hfinds h
  simp only at hnew hvisited hnext houtput
  have hnext : ∀ v, v ∈ s'.next ↔ v ∈ new := fun v => by simp [hnext v]
  refine ⟨⟨(hvisited focus).mpr (.inl hinv.start), ?_, ?_, ?_⟩, fun hsettled => ?_⟩
  · intro v hv
    rcases (hvisited v).mp hv with hv | hv
    · exact hinv.sound v hv
    · obtain ⟨⟨n, hn, hR⟩, -⟩ := hnew v hv
      exact (hinv.sound n (hinv.next n (ExtTreeSet.mem_toList.mp hn))).tail hR
  · exact fun v hv => (hvisited v).mpr (.inr ((hnext v).mp hv))
  · intro v
    rw [houtput, hinv.output, hvisited]
    constructor
    · rintro (⟨hv, hside⟩ | hv)
      · exact ⟨.inl hv, hside⟩
      · exact ⟨.inr hv, .inr fun heq => (hnew v hv).2 (heq ▸ hinv.start)⟩
    · rintro ⟨hv | hv, hside⟩
      · exact .inl ⟨hv, hside⟩
      · exact .inr hv
  · refine hstop.imp_right fun hall n hn hlast v hR => ?_
    have hbefore : n ∈ s.visited :=
      ((hvisited n).mp hn).resolve_right fun hin => hlast ((hnext n).mpr hin)
    by_cases hfront : n ∈ s.next
    · exact hall n (ExtTreeSet.mem_toList.mpr hfront) v hR
    · exact (hvisited v).mpr (.inl (hsettled n hbefore hfront v hR))

/-- What a closure is for: the nodes reached from a node, and the node itself if included. -/
def Closure (R : α → α → Prop) (focus : α) (included : Bool) : Set α :=
  {v | ReflTransGen R focus v ∧ (included = true ∨ v ≠ focus)}

omit [LawfulEqCmp cmp] in
/-- A closure ends when no node is left to walk on from, or when the cap is reached. -/
theorem Closing.done {focus : α} (hinv : Closing R focus included s)
    (hsettled : reached cap s.output = true ∨ s.Settled R)
    (hend : (s.next.isEmpty || reached cap s.output) = true) :
    (∀ v ∈ s.output, v ∈ Closure R focus included) ∧
      (reached cap s.output = true ∨ ∀ v ∈ Closure R focus included, v ∈ s.output) := by
  refine ⟨fun v hv => ?_, ?_⟩
  · obtain ⟨hv, hside⟩ := (hinv.output v).mp hv
    exact ⟨hinv.sound v hv, hside⟩
  by_cases hcap : reached cap s.output = true
  · exact .inl hcap
  rw [Bool.or_eq_true, or_iff_left hcap, ExtTreeSet.isEmpty_iff] at hend
  have hclosed : ∀ n ∈ s.visited, ∀ v, R n v → v ∈ s.visited :=
    fun n hn => hsettled.resolve_left hcap n hn (by simp [hend])
  have hall : ∀ v, ReflTransGen R focus v → v ∈ s.visited := by
    intro v hreach
    induction hreach with
    | refl => exact hinv.start
    | tail _ hR ih => exact hclosed _ ih _ hR
  exact .inr fun v ⟨hreach, hside⟩ => (hinv.output v).mpr ⟨hall v hreach, hside⟩

theorem close_eq_ok {tooDeep : ε} {depth : Nat} {focus : α}
    {out : ExtTreeSet α cmp} (hfinds : ∀ n, Finds (w n) {v | R n v})
    (hinv : Closing R focus included s) (hsettled : reached cap s.output = true ∨ s.Settled R)
    (h : close tooDeep w cap depth s st = .ok (out, st')) :
    (∀ v ∈ out, v ∈ Closure R focus included) ∧
      (reached cap out = true ∨ ∀ v ∈ Closure R focus included, v ∈ out) := by
  induction depth generalizing s st with
  | zero =>
    simp only [close] at h
    split at h
    · next hend =>
      cases h
      exact hinv.done hsettled hend
    · cases h
  | succ depth ih =>
    simp only [close] at h
    split at h
    · next hend =>
      cases h
      exact hinv.done hsettled hend
    · next hgo =>
      obtain ⟨⟨s', st₁⟩, hlayer, hrest⟩ := bind_eq_ok.mp h
      obtain ⟨hinv', hstep⟩ := hinv.layer hfinds hlayer
      have hnot : ¬ reached cap s.output = true := fun hcap => hgo (by simp [hcap])
      exact ih hinv' (hstep (hsettled.resolve_left hnot)) hrest

/-- The closure from a node. -/
def closeFrom (tooDeep : ε) (w : Walker α ε σ cmp) (included : Bool) (depth : Nat) :
    Walker α ε σ cmp := fun focus cap st =>
  let start := (∅ : ExtTreeSet α cmp).insert focus
  close tooDeep w cap depth
    { visited := start, next := start, output := if included then start else ∅ } st

theorem exhausts_closeFrom {tooDeep : ε} {depth : Nat}
    (hfinds : ∀ n, Finds (w n) {v | R n v}) (focus : α) :
    Exhausts (closeFrom tooDeep w included depth focus) (Closure R focus included) := by
  intro cap st out st' hrun
  refine close_eq_ok hfinds ⟨mem_insert_empty.mpr rfl, ?_, fun v hv => hv, ?_⟩ (.inr ?_) hrun
  · intro v hv
    rw [mem_insert_empty.mp hv]
  · intro v
    cases included with
    | true => simp
    | false => simpa using Eq.symm
  · intro n hn hlast
    exact absurd hn hlast

end Close

/-! ## The state decides nothing

What a walk returns depends on the cap and the rows it is given, never on the state: the state can
only make it fail. -/

section Steady

open Stateful (Steady)

theorem steady_gather (charge : σ → Except ε σ) (cap : Option Nat) (vs : List α)
    (out : ExtTreeSet α cmp) : Steady (gather charge cap vs out) := by
  induction vs generalizing out with
  | nil => exact .pure out
  | cons v vs ih =>
    intro s a s' t b t' h h'
    obtain ⟨s₁, _, hrest⟩ := bind_eq_ok.mp h
    obtain ⟨t₁, _, hrest'⟩ := bind_eq_ok.mp h'
    exact Steady.ite (reached cap (out.insert v) = true) (.pure _) (ih (out.insert v)) hrest hrest'

theorem steady_collect {probes : List (Probe α ε σ cmp)}
    (h : ∀ probe ∈ probes, ∀ cap, Steady (probe cap)) (cap : Option Nat) (out : ExtTreeSet α cmp) :
    Steady (collect cap probes out) := by
  induction probes generalizing out with
  | nil => exact .pure out
  | cons probe probes ih =>
    have hrest : ∀ out, Steady (collect cap probes out) :=
      ih fun p hp => h p (List.mem_cons_of_mem _ hp)
    exact Steady.bind (h probe List.mem_cons_self _) fun vs =>
      Steady.ite (reached cap (extend out vs) = true) (.pure _) (hrest (extend out vs))

variable {w : Walker α ε σ cmp}

theorem steady_spread (h : ∀ n cap, Steady (w n cap))
    (frontier : ExtTreeSet α cmp) (cap : Option Nat) : Steady (spread w frontier cap) := by
  refine steady_collect (fun probe hprobe => ?_) cap ∅
  obtain ⟨n, _, rfl⟩ := List.mem_map.mp hprobe
  exact h n

theorem steady_sequence {ws : List (Walker α ε σ cmp)} (h : ∀ w ∈ ws, ∀ n cap, Steady (w n cap))
    (cap : Option Nat) (frontier : ExtTreeSet α cmp) : Steady (sequence cap ws frontier) := by
  induction ws generalizing frontier with
  | nil => exact .pure frontier
  | cons w ws ih =>
    have hrest : ∀ frontier, Steady (sequence cap ws frontier) :=
      ih fun w hw => h w (List.mem_cons_of_mem _ hw)
    exact Steady.bind (steady_spread (h w List.mem_cons_self) frontier _) fun next =>
      Steady.ite (next.isEmpty = true) (.pure next) (hrest next)

theorem steady_optional {focus : α} (h : ∀ cap, Steady (w focus cap))
    (cap : Option Nat) : Steady (optional w focus cap) :=
  Steady.ite (cap = some 1) (.pure _) (Steady.bind (h _) fun _ => .pure _)

theorem steady_layer (h : ∀ n, Steady (w n none)) (cap : Option Nat)
    (ns : List α) (s : Visit α cmp) : Steady (layer w cap ns s) := by
  induction ns generalizing s with
  | nil => exact .pure s
  | cons n ns ih =>
    exact Steady.bind (h n) fun vs =>
      Steady.ite (reached cap (visit cap vs.toList s).output = true)
        (.pure (visit cap vs.toList s)) (ih (visit cap vs.toList s))

theorem steady_close (h : ∀ n, Steady (w n none)) (tooDeep : ε)
    (cap : Option Nat) (depth : Nat) (s : Visit α cmp) : Steady (close tooDeep w cap depth s) := by
  induction depth generalizing s with
  | zero => exact Steady.ite ((s.next.isEmpty || reached cap s.output) = true) (.pure _) (.error _)
  | succ depth ih =>
    exact Steady.ite ((s.next.isEmpty || reached cap s.output) = true) (.pure _)
      (Steady.bind (steady_layer h cap _ _) fun s => ih s)

omit [TransCmp cmp] in
theorem steady_guarded {focus : α} (h : ∀ cap, Steady (w focus cap))
    (cap : Option Nat) : Steady (guarded w focus cap) :=
  Steady.ite (cap = some 0) (.pure ∅) (h cap)

end Steady

end Walk
