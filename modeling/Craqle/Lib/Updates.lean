import Craqle.Lib.Fallible

/-! # Maps under lists of writes

A map as a function, and a batch of writes as a list of keys with values. When no key is
written twice, a lookup after the batch is what the batch says of the key (`updates_of_mem`),
and else what it was (`updates_of_notMem`). A batch can be computed key by key by a loop that may
fail (`updates_mapM`).

States with several maps are written by folds that touch one map at a time: `foldl_field` reads
such a fold as a batch on its map, `foldl_frame` says that it leaves another part alone, and
`foldl_iff_exists` reads a fold that only gathers.
-/

namespace Updates

open List Function

universe u v w x

variable {κ : Type u} {β : Type v} {σ : Type w} {α : Type x} [DecidableEq κ]

/-- All writes of a batch, in order. -/
def updates (f : κ → β) (writes : List (κ × β)) : κ → β :=
  writes.foldl (fun f write => Function.update f write.1 write.2) f

@[simp] theorem updates_nil (f : κ → β) : updates f [] = f := rfl

@[simp] theorem updates_cons (f : κ → β) (write : κ × β) (writes : List (κ × β)) :
    updates f (write :: writes) = updates (update f write.1 write.2) writes := rfl

theorem updates_of_notMem {f : κ → β} {writes : List (κ × β)} {k : κ}
    (h : k ∉ writes.map Prod.fst) : updates f writes k = f k := by
  induction writes generalizing f with
  | nil => rfl
  | cons write writes ih =>
    rw [map_cons, mem_cons, not_or] at h
    rw [updates_cons, ih h.2, update_of_ne h.1]

theorem updates_of_mem {f : κ → β} {writes : List (κ × β)} (hnodup : (writes.map Prod.fst).Nodup)
    {k : κ} {b : β} (h : (k, b) ∈ writes) : updates f writes k = b := by
  induction writes generalizing f with
  | nil => simp at h
  | cons write writes ih =>
    rw [map_cons, nodup_cons] at hnodup
    rw [updates_cons]
    rcases mem_cons.mp h with rfl | h
    · rw [updates_of_notMem hnodup.1, update_self]
    · exact ih hnodup.2 h

/-- A batch that a fallible loop computes for each of its keys. -/
theorem updates_mapM {κ υ : Type v} [DecidableEq κ] {f : κ → Option υ} {write : υ → κ × β}
    {keys : List κ} {us : List υ} (hnodup : keys.Nodup) (h : keys.mapM f = some us)
    (hkey : ∀ k ∈ keys, ∀ u, f k = some u → (write u).1 = k) {base : κ → β} {k : κ} {b : β}
    (hin : ∀ u, k ∈ keys → f k = some u → (write u).2 = b) (hout : k ∉ keys → base k = b) :
    updates base (us.map write) k = b := by
  have hpairs := Fallible.forall₂_of_mapM h
  clear h
  induction hpairs generalizing base with
  | nil => exact hout (by simp)
  | @cons x u xs us hu hrest ih =>
    rw [nodup_cons] at hnodup
    rw [map_cons, updates_cons, hkey x mem_cons_self u hu]
    apply ih hnodup.2 (fun k' hk' => hkey k' (mem_cons_of_mem _ hk'))
    · intro u' hk'
      exact hin u' (mem_cons_of_mem _ hk')
    · intro hk'
      by_cases hkx : k = x
      · subst hkx
        rw [update_self]
        exact hin u mem_cons_self hu
      · rw [update_of_ne hkx]
        exact hout (by simp [hkx, hk'])

theorem foldl_field (field : σ → κ → β) (step : σ → α → σ) (write : α → κ × β)
    (hstep : ∀ s a, field (step s a) = update (field s) (write a).1 (write a).2)
    (s : σ) (as : List α) : field (as.foldl step s) = updates (field s) (as.map write) := by
  induction as generalizing s with
  | nil => rfl
  | cons a as ih => rw [foldl_cons, ih, hstep, map_cons, updates_cons]

/-- A fold leaves alone what each step leaves alone. -/
theorem foldl_frame {γ : Type v} (part : σ → γ) (step : σ → α → σ)
    (hstep : ∀ s a, part (step s a) = part s) (s : σ) (as : List α) :
    part (as.foldl step s) = part s := by
  induction as generalizing s with
  | nil => rfl
  | cons a as ih => rw [foldl_cons, ih, hstep]

/-- A fold that keeps what it has and adds what each item brings has what some item brought. -/
theorem foldl_iff_exists {step : σ → α → σ} {P : σ → Prop} {Q : α → Prop}
    (hstep : ∀ acc x, P (step acc x) ↔ P acc ∨ Q x) (xs : List α) (acc : σ) :
    P (xs.foldl step acc) ↔ P acc ∨ ∃ x ∈ xs, Q x := by
  induction xs generalizing acc with
  | nil => simp
  | cons x xs ih =>
    rw [foldl_cons, ih, hstep, exists_mem_cons_iff]
    exact or_assoc

end Updates
