import Mathlib.Order.Lattice

/-! # Registers that keep the entry with the greatest tag

A last-writer-wins register is written in any order and keeps one entry. What it should keep is
a *latest* entry of the history of writes: one of them, with a tag that no other exceeds
(`Latest`). A write at or above the kept tag replaces it (`Latest.newer`), one at or below it
can be ignored (`Latest.older`). Where tags tell entries apart, the latest one depends on the
set of writes only (`Latest.unique`).
-/

namespace Register

universe u v

variable {α : Type u} {κ : Type v} [LinearOrder κ] {tag : α → κ} {a b : α} {history : List α}

/-- `a` is an entry of the history with the greatest tag. -/
structure Latest (tag : α → κ) (a : α) (history : List α) : Prop where
  mem : a ∈ history
  le : ∀ b ∈ history, tag b ≤ tag a

theorem latest_singleton (a : α) : Latest tag a [a] where
  mem := List.mem_singleton_self a
  le b hb := by
    rw [List.mem_singleton.mp hb]

theorem Latest.newer (h : Latest tag a history) (hle : tag a ≤ tag b) :
    Latest tag b (b :: history) where
  mem := List.mem_cons_self
  le c hc := by
    rcases List.mem_cons.mp hc with rfl | hc
    · exact le_rfl
    · exact (h.le c hc).trans hle

theorem Latest.older (h : Latest tag a history) (hle : tag b ≤ tag a) :
    Latest tag a (b :: history) where
  mem := List.mem_cons_of_mem _ h.mem
  le c hc := by
    rcases List.mem_cons.mp hc with rfl | hc
    · exact hle
    · exact h.le c hc

/-- The latest entry of two histories with the same entries, when tags tell them apart. -/
theorem Latest.unique {history' : List α} (h : Latest tag a history) (h' : Latest tag b history')
    (hsame : ∀ c, c ∈ history ↔ c ∈ history')
    (hdistinct : ∀ c ∈ history, ∀ d ∈ history, tag c = tag d → c = d) : a = b := by
  have hb : b ∈ history := (hsame b).mpr h'.mem
  have ha : a ∈ history' := (hsame a).mp h.mem
  exact hdistinct a h.mem b hb (le_antisymm (h'.le a ha) (h.le b hb))

end Register
