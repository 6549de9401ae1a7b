import Mathlib.Algebra.BigOperators.Group.List.Basic
import Mathlib.Algebra.GroupWithZero.Nat
import Mathlib.Data.List.Nodup

/-! # Lists of keyed rows

A relation between keys and values kept as a list of rows, one row a key, each with the list of
its values. `Lists` says that a list of rows is such a representation. Rows are inserted, dropped
and replaced at a position; the order of the rows does not matter, and two lists of one relation
have the same keys with the same numbers of values (`Lists.perm_counts`).
-/

namespace Rows

open List

universe u v w

variable {ρ : Type u} {K : Type v} {V : Type w}

/-- Drop an element and put the last one in its place. -/
def swapRemove (l : List ρ) (i : Nat) : List ρ :=
  match l.getLast? with
  | none => l
  | some last => (l.set i last).dropLast

theorem swapRemove_perm (before : List ρ) (r : ρ) (after : List ρ) :
    (swapRemove (before ++ r :: after) before.length).Perm (before ++ after) := by
  rcases eq_nil_or_concat after with rfl | ⟨mid, last, rfl⟩
  · -- the last row is dropped
    simp [swapRemove]
  have hlast : (before ++ r :: (mid ++ [last])).getLast? = some last := by
    simp [getLast?_append, getLast?_cons]
  have hset : (before ++ r :: (mid ++ [last])).set before.length last =
      (before ++ last :: mid) ++ [last] := by
    simp
  simp only [swapRemove, concat_eq_append, hlast, hset, dropLast_concat]
  exact List.Perm.append_left before (perm_append_singleton last mid).symm

/-- The rows list the relation: one row a key with a value, and all values of the key in it. -/
structure Lists (key : ρ → K) (elems : ρ → List V) (holds : K → V → Prop) (rows : List ρ) :
    Prop where
  keys : (rows.map key).Nodup
  nodup : ∀ r ∈ rows, (elems r).Nodup
  nonempty : ∀ r ∈ rows, elems r ≠ []
  sound : ∀ r ∈ rows, ∀ v, v ∈ elems r ↔ holds (key r) v
  complete : ∀ k v, holds k v → k ∈ rows.map key

namespace Lists

variable {key : ρ → K} {elems : ρ → List V} {holds holds' : K → V → Prop}
  {rows rows' before after : List ρ} {r : ρ}

theorem nil (h : ∀ k v, ¬ holds k v) : Lists key elems holds [] where
  keys := nodup_nil
  nodup := by simp
  nonempty := by simp
  sound := by simp
  complete k v hk := absurd hk (h k v)

theorem perm (h : Lists key elems holds rows) (hperm : rows.Perm rows') :
    Lists key elems holds rows' where
  keys := (hperm.map key).nodup_iff.mp h.keys
  nodup r hr := h.nodup r (hperm.mem_iff.mpr hr)
  nonempty r hr := h.nonempty r (hperm.mem_iff.mpr hr)
  sound r hr := h.sound r (hperm.mem_iff.mpr hr)
  complete k v hk := (hperm.map key).mem_iff.mp (h.complete k v hk)

/-- Reorder the values of every row. -/
theorem map {f : ρ → ρ} (h : Lists key elems holds rows) (hkey : ∀ r, key (f r) = key r)
    (helems : ∀ r, (elems (f r)).Perm (elems r)) : Lists key elems holds (rows.map f) := by
  have hkeys : (rows.map f).map key = rows.map key := by simp [Function.comp_def, hkey]
  refine ⟨?_, ?_, ?_, ?_, ?_⟩
  · rw [hkeys]
    exact h.keys
  · exact forall_mem_map.mpr fun r hr => (helems r).nodup_iff.mpr (h.nodup r hr)
  · refine forall_mem_map.mpr fun r hr hnil => ?_
    have hperm := helems r
    rw [hnil] at hperm
    exact h.nonempty r hr hperm.nil_eq.symm
  · refine forall_mem_map.mpr fun r hr v => ?_
    rw [hkey, (helems r).mem_iff, h.sound r hr v]
  · intro k v hk
    rw [hkeys]
    exact h.complete k v hk

theorem insert (h : Lists key elems holds (before ++ after))
    (hnew : ∀ s ∈ before ++ after, key s ≠ key r) (hnodup : (elems r).Nodup) (hne : elems r ≠ [])
    (hrow : ∀ v, v ∈ elems r ↔ holds' (key r) v)
    (hsame : ∀ k, k ≠ key r → ∀ v, holds' k v ↔ holds k v) :
    Lists key elems holds' (before ++ r :: after) := by
  have hfront : Lists key elems holds' (r :: (before ++ after)) := by
    refine ⟨?_, ?_, ?_, ?_, ?_⟩
    · refine nodup_cons.mpr ⟨fun hmem => ?_, h.keys⟩
      obtain ⟨s, hs, hkey⟩ := mem_map.mp hmem
      exact hnew s hs hkey
    · exact forall_mem_cons.mpr ⟨hnodup, h.nodup⟩
    · exact forall_mem_cons.mpr ⟨hne, h.nonempty⟩
    · refine forall_mem_cons.mpr ⟨hrow, fun s hs v => ?_⟩
      rw [h.sound s hs v, hsame (key s) (hnew s hs)]
    · intro k v hk
      by_cases hkey : k = key r
      · rw [hkey]
        exact mem_cons_self
      · exact mem_cons_of_mem _ (h.complete k v ((hsame k hkey v).mp hk))
  exact hfront.perm perm_middle.symm

section

variable (h : Lists key elems holds (before ++ r :: after))
include h

theorem key_ne :
    ∀ s ∈ before ++ after, key s ≠ key r := by
  have hkeys : ((r :: (before ++ after)).map key).Nodup := (perm_middle.map key).nodup_iff.mp h.keys
  intro s hs heq
  refine (nodup_cons.mp hkeys).1 ?_
  rw [← heq]
  exact mem_map_of_mem hs

/-- Drop the row of a key that has lost its values. -/
theorem drop (hgone : ∀ v, ¬ holds' (key r) v)
    (hsame : ∀ k, k ≠ key r → ∀ v, holds' k v ↔ holds k v) :
    Lists key elems holds' (before ++ after) := by
  have hne := h.key_ne
  have hrows : Lists key elems holds (r :: (before ++ after)) := h.perm perm_middle
  refine ⟨(nodup_cons.mp hrows.keys).2, ?_, ?_, ?_, ?_⟩
  · exact fun s hs => hrows.nodup s (mem_cons_of_mem _ hs)
  · exact fun s hs => hrows.nonempty s (mem_cons_of_mem _ hs)
  · intro s hs v
    rw [hrows.sound s (mem_cons_of_mem _ hs) v, hsame (key s) (hne s hs)]
  · intro k v hk
    by_cases hkey : k = key r
    · rw [hkey] at hk
      exact absurd hk (hgone v)
    · have hmem := hrows.complete k v ((hsame k hkey v).mp hk)
      exact (mem_cons.mp hmem).resolve_left hkey

theorem replace {s : ρ} (hkey : key s = key r)
    (hnodup : (elems s).Nodup) (hne : elems s ≠ []) (hrow : ∀ v, v ∈ elems s ↔ holds' (key r) v)
    (hsame : ∀ k, k ≠ key r → ∀ v, holds' k v ↔ holds k v) :
    Lists key elems holds' (before ++ s :: after) := by
  -- drop the old row first, as if the key had lost its values
  have hdropped : Lists key elems (fun k v => k ≠ key r ∧ holds k v) (before ++ after) :=
    h.drop (fun v hv => hv.1 rfl) fun k hk v => and_iff_right hk
  have hnew : ∀ t ∈ before ++ after, key t ≠ key s := by
    rw [hkey]
    exact h.key_ne
  refine hdropped.insert hnew hnodup hne ?_ ?_
  · rw [hkey]
    exact hrow
  · intro k hk v
    rw [hkey] at hk
    rw [hsame k hk v]
    exact (and_iff_right hk).symm

end

variable (h : Lists key elems holds rows) (h' : Lists key elems holds rows')
include h h'

/-- Two lists of one relation have the same keys with the same numbers of values. -/
theorem perm_counts :
    (rows.map fun r => (key r, (elems r).length)).Perm
      (rows'.map fun r => (key r, (elems r).length)) := by
  have hnodup : ∀ {l : List ρ}, (l.map key).Nodup →
      (l.map fun r => (key r, (elems r).length)).Nodup := by
    intro l hl
    refine List.Nodup.of_map Prod.fst ?_
    simpa [Function.comp_def] using hl
  have hsub : ∀ {l l' : List ρ}, Lists key elems holds l → Lists key elems holds l' →
      ∀ p, p ∈ l.map (fun r => (key r, (elems r).length)) →
        p ∈ l'.map fun r => (key r, (elems r).length) := by
    intro l l' hl hl' p hp
    obtain ⟨r, hr, rfl⟩ := mem_map.mp hp
    -- the row has a value, so the other list has a row of its key, with the same values
    obtain ⟨v, hv⟩ := exists_mem_of_ne_nil _ (hl.nonempty r hr)
    obtain ⟨r', hr', hkey⟩ := mem_map.mp (hl'.complete (key r) v ((hl.sound r hr v).mp hv))
    have helems : (elems r').Perm (elems r) := by
      refine (perm_ext_iff_of_nodup (hl'.nodup r' hr') (hl.nodup r hr)).mpr fun v => ?_
      rw [hl'.sound r' hr' v, hl.sound r hr v, hkey]
    refine mem_map.mpr ⟨r', hr', ?_⟩
    rw [hkey, helems.length_eq]
  exact (perm_ext_iff_of_nodup (hnodup h.keys) (hnodup h'.keys)).mpr
    fun p => ⟨hsub h h' p, hsub h' h p⟩

theorem length_eq :
    rows.length = rows'.length := by
  simpa using (h.perm_counts h').length_eq

theorem sum_eq (f : K → Nat → Nat) :
    (rows.map fun r => f (key r) (elems r).length).sum =
      (rows'.map fun r => f (key r) (elems r).length).sum := by
  have hsum := ((h.perm_counts h').map fun p => f p.1 p.2).sum_eq
  simpa [Function.comp_def] using hsum

end Lists

theorem key_ne_of_findIdx? [DecidableEq K] {key : ρ → K} {rows : List ρ} {k : K}
    (h : rows.findIdx? (fun r => key r = k) = none) : ∀ r ∈ rows, key r ≠ k := by
  intro r hr heq
  have hp := findIdx?_eq_none_iff.mp h r hr
  simp [heq] at hp

theorem exists_split_of_findIdx? {p : ρ → Bool} {rows : List ρ} {i : Nat}
    (h : rows.findIdx? p = some i) :
    ∃ before r after, rows = before ++ r :: after ∧ before.length = i ∧ p r = true := by
  obtain ⟨hi, hp, _⟩ := findIdx?_eq_some_iff_getElem.mp h
  refine ⟨rows.take i, rows[i], rows.drop (i + 1), ?_, ?_, hp⟩
  · rw [getElem_cons_drop, take_append_drop]
  · exact length_take_of_le (Nat.le_of_lt hi)

end Rows
