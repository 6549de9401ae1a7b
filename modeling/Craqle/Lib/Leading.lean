import Mathlib.Data.Set.Basic

/-! # Leading segments

A list leads a set when it lists some elements of the set in the order of a key and no element
that it leaves out sorts before one that it lists. Reading a set in pages, where each page leads
what the pages before it have left, reads it in order and without repeats (`Leading.append`), and
stopping inside a page leaves a set that the rest of the page leads (`Leading.right`).
-/

variable {α κ : Type*} [LinearOrder κ]

structure Leading (key : α → κ) (P : Set α) (l : List α) : Prop where
  sorted : l.Pairwise fun x y => key x < key y
  mem : ∀ x ∈ l, x ∈ P
  least : ∀ x ∈ l, ∀ y ∈ P, y ∉ l → key x < key y

namespace Leading

open List

variable {key : α → κ} {P Q : Set α} {l l' l₁ l₂ : List α} {x y : α}

theorem nil : Leading key P [] :=
  ⟨List.Pairwise.nil, nofun, nofun⟩

theorem nodup (h : Leading key P l) : l.Nodup :=
  h.sorted.imp fun hlt heq => (heq ▸ hlt).false

theorem left (h : Leading key P (l₁ ++ l₂)) : Leading key P l₁ := by
  obtain ⟨hsorted₁, _, hcross⟩ := pairwise_append.mp h.sorted
  refine ⟨hsorted₁, fun x hx => h.mem x (mem_append_left _ hx), fun x hx y hy hnot => ?_⟩
  by_cases hy₂ : y ∈ l₂
  · exact hcross x hx y hy₂
  · exact h.least x (mem_append_left _ hx) y hy (by simp [hnot, hy₂])

theorem right (h : Leading key P (l₁ ++ l₂)) : Leading key (P \ {x | x ∈ l₁}) l₂ := by
  obtain ⟨_, hsorted₂, _⟩ := pairwise_append.mp h.sorted
  refine ⟨hsorted₂, fun x hx => ⟨h.mem x (mem_append_right _ hx), fun hx₁ => ?_⟩,
    fun x hx y hy hnot => ?_⟩
  · exact (nodup_append.mp h.nodup).2.2 x hx₁ x hx rfl
  · have hnot₁ : y ∉ l₁ := hy.2
    exact h.least x (mem_append_right _ hx) y hy.1 (by simp [hnot, hnot₁])

theorem append (h₁ : Leading key P l₁) (h₂ : Leading key (P \ {x | x ∈ l₁}) l₂) :
    Leading key P (l₁ ++ l₂) := by
  have hcross : ∀ x ∈ l₁, ∀ y ∈ l₂, key x < key y := fun x hx y hy =>
    h₁.least x hx y (h₂.mem y hy).1 (h₂.mem y hy).2
  refine ⟨pairwise_append.mpr ⟨h₁.sorted, h₂.sorted, hcross⟩, fun x hx => ?_,
    fun x hx y hy hnot => ?_⟩
  · rcases mem_append.mp hx with hx | hx
    · exact h₁.mem x hx
    · exact (h₂.mem x hx).1
  · obtain ⟨hnot₁, hnot₂⟩ : y ∉ l₁ ∧ y ∉ l₂ := by simpa using hnot
    rcases mem_append.mp hx with hx | hx
    · exact h₁.least x hx y hy hnot₁
    · exact h₂.least x hx y ⟨hy, hnot₁⟩ hnot₂

theorem singleton (hx : x ∈ P) (hleast : ∀ y ∈ P, y ≠ x → key x < key y) :
    Leading key P [x] := by
  refine ⟨pairwise_singleton _ _, fun y hy => ?_, fun z hz y hy hnot => ?_⟩
  · rwa [mem_singleton.mp hy]
  · obtain rfl := mem_singleton.mp hz
    exact hleast y hy fun heq => hnot (mem_singleton.mpr heq)

/-- The first element sorts before all others. -/
theorem head_lt (h : Leading key P (x :: l)) (hy : y ∈ P) (hne : y ≠ x) : key x < key y := by
  by_cases hmem : y ∈ l
  · exact (pairwise_cons.mp h.sorted).1 y hmem
  · exact h.least x mem_cons_self y hy (by simp [hne, hmem])

/-- Whatever sorts before a listed element is listed before it. -/
theorem mem_left (h : Leading key P (l₁ ++ x :: l₂)) (hy : y ∈ P) (hlt : key y < key x) :
    y ∈ l₁ := by
  obtain ⟨_, hsorted, _⟩ := pairwise_append.mp h.sorted
  by_contra hnot
  have hmem : y ∈ l₁ ++ x :: l₂ := by
    by_contra hout
    exact hlt.asymm (h.least x (by simp) y hy hout)
  have hmem₂ : y ∈ x :: l₂ := (mem_append.mp hmem).resolve_left hnot
  rcases mem_cons.mp hmem₂ with rfl | hmem₂
  · exact hlt.false
  · exact hlt.asymm ((pairwise_cons.mp hsorted).1 y hmem₂)

end Leading
