import Mathlib.Data.Finset.Card
import Mathlib.Tactic.Ring
import Mathlib.Algebra.BigOperators.Group.List.Basic

/-! # Sets under lists of changes

A change puts an element into a finite set or takes it out. A list of changes is *effective*
on a set when no element is changed twice and every change makes a difference. Then membership
afterwards can be read off the list (`mem_apply`), and the number of elements with a property
has changed by what the list adds up to (`card_filter_apply`): the rule by which counters are
kept up to date without counting again.
-/

namespace Toggle

open List

universe u

variable {α : Type u} [DecidableEq α]

/-- Put an element in, or take it out. -/
def change (s : Finset α) (c : α × Bool) : Finset α := if c.2 then insert c.1 s else s.erase c.1

/-- All changes of a list, in order. -/
def apply (s : Finset α) (cs : List (α × Bool)) : Finset α := cs.foldl change s

/-- No element is changed twice, and every change makes a difference. -/
structure Effective (s : Finset α) (cs : List (α × Bool)) : Prop where
  nodup : (cs.map Prod.fst).Nodup
  differs : ∀ c ∈ cs, c.1 ∈ s ↔ c.2 = false

@[simp] theorem apply_nil (s : Finset α) : apply s [] = s := rfl

@[simp] theorem apply_cons (s : Finset α) (c : α × Bool) (cs : List (α × Bool)) :
    apply s (c :: cs) = apply (change s c) cs := rfl

variable {s : Finset α} {c : α × Bool}

theorem mem_change {a : α} :
    a ∈ change s c ↔ if a = c.1 then c.2 = true else a ∈ s := by
  obtain ⟨b, inserted⟩ := c
  unfold change
  by_cases h : a = b
  · subst h
    cases inserted with
    | true => simp
    | false => simp
  · cases inserted with
    | true => simp [h]
    | false => simp [h]

variable {cs : List (α × Bool)}

theorem Effective.tail (h : Effective s (c :: cs)) : Effective (change s c) cs := by
  have hnodup := h.nodup
  rw [map_cons, nodup_cons] at hnodup
  refine ⟨hnodup.2, fun c' hc' => ?_⟩
  have hne : c'.1 ≠ c.1 := by
    intro heq
    exact hnodup.1 (heq ▸ mem_map_of_mem hc')
  rw [mem_change, if_neg hne]
  exact h.differs c' (mem_cons_of_mem _ hc')

/-- Membership after a list that changes no element twice: what the list says of the element,
and else what was. -/
theorem mem_apply (hnodup : (cs.map Prod.fst).Nodup) {a : α} :
    a ∈ apply s cs ↔ (a, true) ∈ cs ∨ (a ∈ s ∧ (a, false) ∉ cs) := by
  induction cs generalizing s with
  | nil => simp
  | cons c cs ih =>
    rw [map_cons, nodup_cons] at hnodup
    rw [apply_cons, ih hnodup.2, mem_change]
    by_cases hac : a = c.1
    · subst hac
      have hnot : ∀ l, (c.1, l) ∉ cs := by
        intro l hl
        exact hnodup.1 (mem_map.mpr ⟨_, hl, rfl⟩)
      obtain ⟨b, inserted⟩ := c
      cases inserted with
      | true => simp [hnot]
      | false => simp [hnot]
    · have hne : ∀ l, (a, l) ≠ c := by
        rintro l rfl
        exact hac rfl
      simp [hac, hne]

/-- What one change adds to the number of elements with a property. -/
def weight (p : α → Bool) (c : α × Bool) : Int := if p c.1 then (if c.2 then 1 else -1) else 0

theorem card_filter_change (p : α → Bool) (h : c.1 ∈ s ↔ c.2 = false) :
    (((change s c).filter fun a => p a).card : Int) =
      (s.filter fun a => p a).card + weight p c := by
  obtain ⟨b, inserted⟩ := c
  cases inserted with
  | true =>
    have hnot : b ∉ s := by simpa using h
    show (((insert b s).filter fun a => p a).card : Int) = _
    rw [Finset.filter_insert]
    by_cases hp : p b = true
    · rw [if_pos hp, Finset.card_insert_of_notMem (by simp [hnot])]
      simp [weight, hp]
    · simp [weight, hp]
  | false =>
    have hmem : b ∈ s := by simpa using h
    show (((s.erase b).filter fun a => p a).card : Int) = _
    rw [Finset.filter_erase]
    by_cases hp : p b = true
    · have hb : b ∈ s.filter fun a => p a := by simp [hmem, hp]
      have hpos := Finset.card_pos.mpr ⟨b, hb⟩
      rw [Finset.card_erase_of_mem hb]
      simp only [weight, hp, if_true, Bool.false_eq_true, if_false]
      omega
    · rw [Finset.erase_eq_of_notMem (by simp [hp])]
      simp [weight, hp]

/-- **Counting by changes.** After an effective list the number of elements with a property has
changed by the sum of the weights. -/
theorem card_filter_apply (p : α → Bool) (h : Effective s cs) :
    (((apply s cs).filter fun a => p a).card : Int) =
      (s.filter fun a => p a).card + (cs.map (weight p)).sum := by
  induction cs generalizing s with
  | nil => simp
  | cons c cs ih =>
    rw [apply_cons, ih h.tail, card_filter_change p (h.differs c mem_cons_self), map_cons, sum_cons]
    ring

omit [DecidableEq α] in
theorem sum_weight_of_inserts (p : α → Bool) (h : ∀ c ∈ cs, c.2 = true) :
    (cs.map (weight p)).sum = ((cs.filter fun c => p c.1).length : Int) := by
  induction cs with
  | nil => rfl
  | cons c cs ih =>
    rw [map_cons, sum_cons, ih fun c' hc' => h c' (mem_cons_of_mem _ hc')]
    by_cases hp : p c.1 = true
    · simp [weight, hp, h c mem_cons_self]
      ring
    · simp [weight, hp]

end Toggle
