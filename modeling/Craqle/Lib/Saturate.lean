import Craqle.Lib.Walk

/-! # Loops that run until nothing changes

A round makes a list of moves one after the other, and each move says whether it has changed the
state. The loop repeats rounds until one changes nothing. If a change makes a measure grow that has
a bound, so many rounds are enough, and what is left is a state that no move changes
(`saturate_stable`).

The moves here extend sets in a family that is indexed by numbers (`extendAt`), and set flags
(`flagAt`); the measure is the number of members, and the number of flags that are set.
-/

namespace Saturate

open List Walk Finset Function
open Std (ExtTreeSet TransCmp LawfulEqCmp)

universe u

/-! ## Moves and rounds -/

abbrev Move (σ : Type u):= σ → σ × Bool

section Rounds

variable {σ : Type u}

def round (moves : List (Move σ)) (s : σ) : σ × Bool :=
  moves.foldl (fun acc m => ((m acc.1).1, acc.2 || (m acc.1).2)) (s, false)

def saturate (moves : List (Move σ)) : Nat → σ → σ
  | 0, s => s
  | fuel + 1, s => if (round moves s).2 then saturate moves fuel (round moves s).1
      else (round moves s).1

/-- A move keeps an invariant, and says so exactly when it changes the state; a change makes the
measure grow. -/
structure Progress (I : σ → Prop) (measure : σ → Nat) (m : Move σ) : Prop where
  keeps : ∀ s, I s → I (m s).1
  still : ∀ s, I s → (m s).2 = false → (m s).1 = s
  grows : ∀ s, I s → (m s).2 = true → measure s < measure (m s).1

variable {I : σ → Prop} {measure : σ → Nat} {moves : List (Move σ)} {s : σ}

theorem round_cons (m : Move σ) (moves : List (Move σ)) (s : σ) :
    round (m :: moves) s =
      ((round moves (m s).1).1, (m s).2 || (round moves (m s).1).2) := by
  have hflag : ∀ (l : List (Move σ)) (t : σ) (b : Bool),
      l.foldl (fun acc m => ((m acc.1).1, acc.2 || (m acc.1).2)) (t, b) =
        ((round l t).1, b || (round l t).2) := by
    intro l
    induction l with
    | nil => intro t b; simp [round]
    | cons m l ih =>
      intro t b
      rw [round, foldl_cons, foldl_cons, ih, ih, Bool.false_or, Bool.or_assoc]
  rw [round, foldl_cons, hflag, Bool.false_or]

variable (h : ∀ m ∈ moves, Progress I measure m)
include h

/-- A round keeps the invariant. If it changes nothing, it has found a state that no move changes,
and else the measure has grown. -/
theorem round_progress (hs : I s) :
    I (round moves s).1 ∧
      ((round moves s).2 = false → (round moves s).1 = s ∧ ∀ m ∈ moves, m s = (s, false)) ∧
      ((round moves s).2 = true → measure s < measure (round moves s).1) := by
  induction moves generalizing s with
  | nil => exact ⟨hs, fun _ => ⟨rfl, by simp⟩, nofun⟩
  | cons m moves ih =>
    have hm := h m mem_cons_self
    obtain ⟨hkeeps, hstill, hgrows⟩ :=
      ih (fun m' hm' => h m' (mem_cons_of_mem _ hm')) (hm.keeps s hs)
    rw [round_cons]
    cases hflag : (m s).2 with
    | false =>
      have hsame : (m s).1 = s := hm.still s hs hflag
      rw [hsame] at hkeeps hstill hgrows ⊢
      refine ⟨hkeeps, fun hround => ?_, hgrows⟩
      obtain ⟨heq, hall⟩ := hstill hround
      exact ⟨heq, forall_mem_cons.mpr ⟨Prod.ext hsame hflag, hall⟩⟩
    | true =>
      refine ⟨hkeeps, nofun, fun _ => ?_⟩
      have hfirst : measure s < measure (m s).1 := hm.grows s hs hflag
      cases hround : (round moves (m s).1).2 with
      | false => rwa [(hstill hround).1]
      | true => exact hfirst.trans (hgrows hround)

/-- **Saturation.** With a bound on the measure and as many rounds, the loop ends in a state that
keeps the invariant and that no move changes. -/
theorem saturate_stable {bound fuel : Nat}
    (hbound : ∀ s, I s → measure s ≤ bound) (hs : I s) (hfuel : bound < fuel + measure s) :
    I (saturate moves fuel s) ∧
      ∀ m ∈ moves, m (saturate moves fuel s) = (saturate moves fuel s, false) := by
  induction fuel generalizing s with
  | zero =>
    have hle := hbound s hs
    omega
  | succ fuel ih =>
    obtain ⟨hkeeps, hstill, hgrows⟩ := round_progress h hs
    rw [saturate]
    split
    · next hchanged =>
      have hlt := hgrows hchanged
      exact ih hkeeps (by omega)
    · next hsame =>
      obtain ⟨heq, hall⟩ := hstill (Bool.eq_false_of_not_eq_true hsame)
      rw [heq]
      exact ⟨hs, hall⟩

end Rounds

/-! ## Families of sets and flags -/

section Families

variable {α : Type} {cmp : α → α → Ordering} [TransCmp cmp]

def extendAt (family : Nat → ExtTreeSet α cmp) (i : Nat) (vs : ExtTreeSet α cmp) :
    (Nat → ExtTreeSet α cmp) × Bool :=
  (Function.update family i (Walk.extend (family i) vs),
    (Walk.extend (family i) vs).size != (family i).size)

def flagAt (flags : Nat → Bool) (i : Nat) : (Nat → Bool) × Bool :=
  (Function.update flags i true, !flags i)

def members (n : Nat) (family : Nat → ExtTreeSet α cmp) : Nat :=
  ∑ i ∈ Finset.range n, (family i).size

/-- How many of the first flags are set. -/
def raised (n : Nat) (flags : Nat → Bool) : Nat :=
  ∑ i ∈ Finset.range n, (flags i).toNat

theorem sum_update_lt {n i : Nat} {β : Type} {f : Nat → β} {b : β} (weight : β → Nat) (hi : i < n)
    (hb : weight (f i) < weight b) :
    ∑ j ∈ range n, weight (f j) <
      ∑ j ∈ range n, weight (update f i b j) := by
  refine Finset.sum_lt_sum (fun j _ => ?_) ⟨i, Finset.mem_range.mpr hi, ?_⟩
  · by_cases hj : j = i
    · subst hj
      rw [update_self]
      exact Nat.le_of_lt hb
    · rw [update_of_ne hj]
  · rw [update_self]
    exact hb

omit [TransCmp cmp] in
theorem members_le {n size : Nat} {family : Nat → ExtTreeSet α cmp}
    (h : ∀ i, (family i).size ≤ size) : members n family ≤ n * size := by
  calc members n family
      ≤ ∑ _i ∈ Finset.range n, size := Finset.sum_le_sum fun i _ => h i
    _ = n * size := by rw [sum_const_nat fun _ _ => rfl, card_range]

theorem raised_le (n : Nat) (flags : Nat → Bool) : raised n flags ≤ n := by
  calc raised n flags
      ≤ ∑ _i ∈ Finset.range n, 1 := Finset.sum_le_sum fun i _ => Bool.toNat_le (flags i)
    _ = n := by rw [sum_const_nat fun _ _ => rfl, card_range, Nat.mul_one]

theorem raised_flagAt {n i : Nat} (hi : i < n) {flags : Nat → Bool} (h : flags i = false) :
    raised n flags < raised n (flagAt flags i).1 := by
  refine sum_update_lt Bool.toNat hi ?_
  rw [h]
  exact Nat.zero_lt_one

section Extend

variable [LawfulEqCmp cmp] {family : Nat → ExtTreeSet α cmp} {i : Nat} {vs : ExtTreeSet α cmp}

theorem size_le_extend (out vs : ExtTreeSet α cmp) : out.size ≤ (Walk.extend out vs).size := by
  rw [← ExtTreeSet.length_toList]
  exact length_le_size (Ordered.nodup_toList out)
    fun v hv => mem_extend.mpr (.inl (ExtTreeSet.mem_toList.mp hv))

theorem mem_extendAt {j : Nat} {v : α} :
    v ∈ (extendAt family i vs).1 j ↔ v ∈ family j ∨ j = i ∧ v ∈ vs := by
  by_cases hj : j = i
  · subst hj
    simp [extendAt, mem_extend]
  · simp [extendAt, hj]

/-- A set that an extension leaves at its size had the new members already. -/
theorem mem_of_extendAt_still (h : (extendAt family i vs).2 = false) {v : α} (hv : v ∈ vs) :
    v ∈ family i := by
  by_contra hnew
  have hsize : (extend (family i) vs).size = (family i).size := by
    simpa [extendAt] using h
  have hnodup : (v :: (family i).toList).Nodup :=
    nodup_cons.mpr ⟨fun hmem => hnew (ExtTreeSet.mem_toList.mp hmem), Ordered.nodup_toList _⟩
  have hle : (v :: (family i).toList).length ≤ (extend (family i) vs).size := by
    refine length_le_size hnodup fun w hw => mem_extend.mpr ?_
    rcases mem_cons.mp hw with rfl | hw
    · exact .inr hv
    · exact .inl (ExtTreeSet.mem_toList.mp hw)
  rw [length_cons, ExtTreeSet.length_toList] at hle
  omega

theorem extendAt_still (h : (extendAt family i vs).2 = false) : (extendAt family i vs).1 = family := by
  have hsame : extend (family i) vs = family i := by
    refine ExtTreeSet.ext_mem fun v => ?_
    rw [mem_extend]
    exact ⟨fun hv => hv.elim id (mem_of_extendAt_still h), .inl⟩
  rw [extendAt, hsame]
  exact update_eq_self i family

theorem members_extendAt {n : Nat} (hi : i < n) (h : (extendAt family i vs).2 = true) :
    members n family < members n (extendAt family i vs).1 := by
  refine sum_update_lt ExtTreeSet.size hi ?_
  have hle := size_le_extend (family i) vs
  have hne : (extend (family i) vs).size ≠ (family i).size := by
    simpa [extendAt] using h
  omega

end Extend

end Families

end Saturate
