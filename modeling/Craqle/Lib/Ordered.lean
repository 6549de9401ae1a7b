import Std.Data.ExtTreeMap
import Std.Data.ExtTreeSet
import Mathlib.Data.List.Basic

/-! # Ordered maps and sets under a lawful comparison

`Std.ExtTreeMap` and `Std.ExtTreeSet` state their lemmas up to `cmp a b = .eq`. Where the
comparison is lawful that is equality of keys, and these are the same lemmas in that form:
one lookup lemma per update, and membership for the set operations.
-/

namespace Ordered

open Std (ExtTreeMap ExtTreeSet TransCmp LawfulEqCmp)

universe u v

section Map

variable {α : Type u} {β : Type v} {cmp : α → α → Ordering} [TransCmp cmp] [LawfulEqCmp cmp]
  [DecidableEq α]

theorem getElem?_insert (t : ExtTreeMap α β cmp) (k a : α) (v : β) :
    (t.insert k v)[a]? = if k = a then some v else t[a]? := by
  rw [ExtTreeMap.getElem?_insert]
  simp

theorem getElem?_erase (t : ExtTreeMap α β cmp) (k a : α) :
    (t.erase k)[a]? = if k = a then none else t[a]? := by
  rw [ExtTreeMap.getElem?_erase]
  simp

omit [DecidableEq α] in
theorem nodup_keys_toList (t : ExtTreeMap α β cmp) : (t.toList.map Prod.fst).Nodup := by
  rw [List.Nodup, List.pairwise_map]
  refine t.distinct_keys_toList.imp ?_
  intro a b hne heq
  exact hne (LawfulEqCmp.compare_eq_iff_eq.mpr heq)

end Map

section Set

variable {α : Type u} {cmp : α → α → Ordering} [TransCmp cmp] [LawfulEqCmp cmp]

theorem mem_insert (t : ExtTreeSet α cmp) (k a : α) : a ∈ t.insert k ↔ a = k ∨ a ∈ t := by
  rw [ExtTreeSet.mem_insert, LawfulEqCmp.compare_eq_iff_eq, eq_comm]

theorem mem_ite_insert {c : Prop} [Decidable c] (t : ExtTreeSet α cmp) (k a : α) :
    a ∈ (if c then t.insert k else t) ↔ a ∈ t ∨ c ∧ a = k := by
  split_ifs with hc
  · rw [mem_insert, or_comm, and_iff_right hc]
  · simp [hc]

theorem mem_insert_empty {k a : α} : a ∈ (∅ : ExtTreeSet α cmp).insert k ↔ a = k := by
  rw [mem_insert]
  simp

theorem mem_erase (t : ExtTreeSet α cmp) (k a : α) : a ∈ t.erase k ↔ a ≠ k ∧ a ∈ t := by
  rw [ExtTreeSet.mem_erase, Ne, LawfulEqCmp.compare_eq_iff_eq, eq_comm]

theorem mem_filter (t : ExtTreeSet α cmp) (f : α → Bool) (a : α) :
    a ∈ t.filter f ↔ a ∈ t ∧ f a = true := by
  rw [ExtTreeSet.mem_filter]
  constructor
  · rintro ⟨ha, hf⟩
    rw [ExtTreeSet.get_eq] at hf
    exact ⟨ha, hf⟩
  · rintro ⟨ha, hf⟩
    refine ⟨ha, ?_⟩
    rw [ExtTreeSet.get_eq]
    exact hf

variable (cmp) in
theorem mem_ofList [DecidableEq α] (l : List α) (a : α) :
    a ∈ ExtTreeSet.ofList l cmp ↔ a ∈ l := by
  rw [ExtTreeSet.mem_ofList, List.contains_iff_mem]

theorem nodup_toList (t : ExtTreeSet α cmp) : t.toList.Nodup :=
  t.distinct_toList.imp fun hne heq => hne (LawfulEqCmp.compare_eq_iff_eq.mpr heq)

omit [LawfulEqCmp cmp] in
theorem ne_empty_iff (t : ExtTreeSet α cmp) : t ≠ ∅ ↔ ∃ a, a ∈ t := by
  rw [Ne, ExtTreeSet.eq_empty_iff_forall_not_mem, not_forall]
  simp

end Set

section List

variable {α : Type u} {β : Type v} {cmp : α → α → Ordering} [TransCmp cmp]

/-- Lists that ascend strictly in a key are determined by their members. -/
theorem eq_of_ordered (key : β → α) {l l' : List β}
    (h : l.Pairwise fun a b => cmp (key a) (key b) = .lt)
    (h' : l'.Pairwise fun a b => cmp (key a) (key b) = .lt) (hmem : ∀ b, b ∈ l ↔ b ∈ l') :
    l = l' := by
  have hnodup : ∀ {m : List β}, m.Pairwise (fun a b => cmp (key a) (key b) = .lt) → m.Nodup := by
    intro m hm
    refine hm.imp fun {a b} hlt heq => ?_
    have hself : cmp (key a) (key a) = .eq := Std.ReflCmp.compare_self
    rw [← heq, hself] at hlt
    cases hlt
  refine List.Perm.eq_of_pairwise (fun a b _ _ hab hba => ?_) h h'
    ((List.perm_ext_iff_of_nodup (hnodup h) (hnodup h')).mpr hmem)
  have hswap : cmp (key a) (key b) = (cmp (key b) (key a)).swap := Std.OrientedCmp.eq_swap
  rw [hswap, hba] at hab
  cases hab

end List

end Ordered
