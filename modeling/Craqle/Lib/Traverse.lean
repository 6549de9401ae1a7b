import Craqle.Lib.Ordered
import Craqle.Lib.Updates
import Mathlib.Tactic.Linarith

/-! # Worklists over a graph with cycles

Two ways to collect the nodes that some nodes reach along successors, with a queue and a set of
marked nodes: mark a node when it is put into the queue (`markQueued`), or when it is taken out of
it (`markTaken`). Both end with exactly the reached nodes, given enough fuel: one unit for every
node that can still be marked, or one for every edge that can still be followed. A search with a
stack (`findTaken`) marks in the second way, and ends at the first node that it looks for.
-/

namespace Traverse

open List Ordered
open Std (ExtTreeSet TransCmp LawfulEqCmp)
open Relation (ReflTransGen)

universe u

variable {α : Type u}

/-- There is a path along successors. -/
def Reaches (succ : α → List α) : α → α → Prop := ReflTransGen fun x y => y ∈ succ x

variable {succ : α → List α}

theorem Reaches.step {x y : α} (h : y ∈ succ x) : Reaches succ x y :=
  .single h

/-- A set that is closed under successors has what its nodes reach. -/
theorem Reaches.mem_of_closed {P : α → Prop}
    (hclosed : ∀ x, P x → ∀ y ∈ succ x, P y) {x y : α} (h : Reaches succ x y) (hx : P x) : P y := by
  induction h with
  | refl => exact hx
  | tail _ hedge ih => exact hclosed _ ih _ hedge

variable {cmp : α → α → Ordering} [TransCmp cmp]

/-! ## Marking what is queued -/

/-- Queue a node that is not marked yet, and mark it. -/
def enqueue (acc : List α × ExtTreeSet α cmp) (y : α) : List α × ExtTreeSet α cmp :=
  if y ∈ acc.2 then acc else (acc.1 ++ [y], acc.2.insert y)

def markQueued (succ : α → List α) : Nat → List α → ExtTreeSet α cmp → ExtTreeSet α cmp
  | 0, _, seen => seen
  | _ + 1, [], seen => seen
  | fuel + 1, x :: queue, seen =>
    let next := (succ x).foldl enqueue (queue, seen)
    markQueued succ fuel next.1 next.2

section Queued

variable {ys queue : List α} {seen : ExtTreeSet α cmp} {y : α}

variable [LawfulEqCmp cmp]

theorem mem_foldl_enqueue_seen : y ∈ (ys.foldl enqueue (queue, seen)).2 ↔ y ∈ seen ∨ y ∈ ys := by
  have hstep : ∀ (acc : List α × ExtTreeSet α cmp) z,
      y ∈ (enqueue acc z).2 ↔ y ∈ acc.2 ∨ y = z := by
    intro acc z
    unfold enqueue
    split
    · next hz => exact (or_iff_left_of_imp fun heq => heq ▸ hz).symm
    · rw [mem_insert, or_comm]
  refine (Updates.foldl_iff_exists (P := fun acc : _ × ExtTreeSet α cmp => y ∈ acc.2) hstep
    _ _).trans ?_
  simp

/-- What was queued stays so, and a node that was not marked is queued. -/
theorem mem_foldl_enqueue :
    y ∈ (ys.foldl enqueue (queue, seen)).1 ↔ y ∈ queue ∨ y ∈ ys ∧ y ∉ seen := by
  induction ys generalizing queue seen with
  | nil => simp
  | cons z ys ih =>
    have hstep : enqueue (queue, seen) z =
        if z ∈ seen then (queue, seen) else (queue ++ [z], seen.insert z) := rfl
    rw [foldl_cons, hstep]
    by_cases hz : z ∈ seen
    · rw [if_pos hz, ih]
      by_cases heq : y = z
      · simp [heq, hz]
      · simp [heq]
    · rw [if_neg hz, ih]
      by_cases heq : y = z
      · simp [heq, hz]
      · simp [heq, Ne.symm heq]

/-- Every node that is queued is no longer one that can be marked. -/
theorem length_foldl_enqueue {nodes : List α} (hys : ∀ y ∈ ys, y ∈ nodes) :
    (ys.foldl enqueue (queue, seen)).1.length +
        (nodes.filter (· ∉ (ys.foldl enqueue (queue, seen)).2)).length ≤
      queue.length + (nodes.filter (· ∉ seen)).length := by
  induction ys generalizing queue seen with
  | nil => exact le_rfl
  | cons z ys ih =>
    rw [foldl_cons]
    have hrest : ∀ y ∈ ys, y ∈ nodes := fun y hy => hys y (mem_cons_of_mem z hy)
    by_cases hz : z ∈ seen
    · have hstep : enqueue (queue, seen) z = (queue, seen) := if_pos hz
      rw [hstep]
      exact ih hrest
    have hstep : enqueue (queue, seen) z = (queue ++ [z], seen.insert z) := if_neg hz
    rw [hstep]
    refine (ih hrest).trans ?_
    -- marking the node takes it out of those that can be marked
    have hfilter : nodes.filter (· ∉ seen.insert z) =
        (nodes.filter (· ∉ seen)).filter (· ∉ seen.insert z) := by
      rw [filter_filter]
      refine filter_congr fun a _ => ?_
      by_cases ha : a ∈ seen <;> simp [ha]
    have hless : (nodes.filter (· ∉ seen.insert z)).length <
        (nodes.filter (· ∉ seen)).length := by
      rw [hfilter, length_filter_lt_length_iff_exists]
      exact ⟨z, by simpa [hz] using hys z mem_cons_self, by simp⟩
    rw [length_append, length_singleton]
    omega

/-- **Marking what is queued collects what the marked nodes reach**, if every marked node is queued
or has its successors marked, and the fuel is enough for the nodes that can still be marked. -/
theorem mem_markQueued {succ : α → List α} {nodes : List α} (hnodes : ∀ x, ∀ y ∈ succ x, y ∈ nodes)
    {fuel : Nat} (hqueue : ∀ x ∈ queue, x ∈ seen)
    (hclosed : ∀ x ∈ seen, x ∈ queue ∨ ∀ y ∈ succ x, y ∈ seen)
    (hfuel : queue.length + (nodes.filter (· ∉ seen)).length ≤ fuel) :
    y ∈ markQueued succ fuel queue seen ↔ ∃ x ∈ seen, Reaches succ x y := by
  have hdone : ∀ {s : ExtTreeSet α cmp}, (∀ x ∈ s, ∀ z ∈ succ x, z ∈ s) →
      (y ∈ s ↔ ∃ x ∈ s, Reaches succ x y) := fun hs =>
    ⟨fun hy => ⟨y, hy, .refl⟩, fun ⟨_, hx, hxy⟩ => hxy.mem_of_closed hs hx⟩
  induction fuel generalizing queue seen with
  | zero =>
    have hempty : queue = [] := eq_nil_of_length_eq_zero (by omega)
    subst hempty
    exact hdone fun x hx => (hclosed x hx).resolve_left (not_mem_nil)
  | succ fuel ih =>
    cases queue with
    | nil => exact hdone fun x hx => (hclosed x hx).resolve_left (not_mem_nil)
    | cons x queue =>
      have hx : x ∈ seen := hqueue x mem_cons_self
      have hmark : ∀ z, z ∈ ((succ x).foldl enqueue (queue, seen)).2 ↔ z ∈ seen ∨ z ∈ succ x :=
        fun z => mem_foldl_enqueue_seen
      have hless : ((succ x).foldl enqueue (queue, seen)).1.length +
          (nodes.filter (· ∉ ((succ x).foldl enqueue (queue, seen)).2)).length ≤
          queue.length + (nodes.filter (· ∉ seen)).length := length_foldl_enqueue (hnodes x)
      rw [length_cons] at hfuel
      unfold markQueued
      refine (ih ?_ ?_ (by omega)).trans ?_
      · intro z hz
        rw [hmark]
        rcases mem_foldl_enqueue.mp hz with hz | hz
        · exact .inl (hqueue z (mem_cons_of_mem x hz))
        · exact .inr hz.1
      · intro z hz
        by_cases hold : z ∈ seen
        · rcases hclosed z hold with hq | hsucc
          · rcases mem_cons.mp hq with rfl | hq
            · exact .inr fun w hw => (hmark w).mpr (.inr hw)
            · exact .inl (mem_foldl_enqueue.mpr (.inl hq))
          · exact .inr fun w hw => (hmark w).mpr (.inl (hsucc w hw))
        · have hnew : z ∈ succ x := ((hmark z).mp hz).resolve_left hold
          exact .inl (mem_foldl_enqueue.mpr (.inr ⟨hnew, hold⟩))
      · constructor
        · rintro ⟨z, hz, hzy⟩
          rcases (hmark z).mp hz with hz | hz
          · exact ⟨z, hz, hzy⟩
          · exact ⟨x, hx, (Reaches.step hz).trans hzy⟩
        · rintro ⟨z, hz, hzy⟩
          exact ⟨z, (hmark z).mpr (.inl hz), hzy⟩

end Queued

/-! ## Marking what is taken -/

def markTaken (succ : α → List α) : Nat → List α → ExtTreeSet α cmp → ExtTreeSet α cmp
  | 0, _, seen => seen
  | _ + 1, [], seen => seen
  | fuel + 1, x :: queue, seen =>
    if x ∈ seen then markTaken succ fuel queue seen
    else markTaken succ fuel (queue ++ succ x) (seen.insert x)

variable {seen : ExtTreeSet α cmp}

/-- The edges of a node that is marked are no longer those of an unmarked node. -/
theorem length_filter_insert [LawfulEqCmp cmp] [DecidableEq α] {x : α}
    (hx : x ∉ seen) (edges : List (α × α)) :
    (edges.filter (·.1 ∉ seen.insert x)).length + (edges.filter (·.1 = x)).length =
      (edges.filter (·.1 ∉ seen)).length := by
  induction edges with
  | nil => rfl
  | cons e edges ih =>
    simp only [filter_cons, mem_insert] at ih ⊢
    by_cases he : e.1 = x
    · simp only [he, hx, true_or, not_true_eq_false, decide_false, Bool.false_eq_true,
        if_false, decide_true, if_true, not_false_eq_true, length_cons]
      omega
    by_cases hseen : e.1 ∈ seen
    · simp only [he, hseen, or_true, not_true_eq_false, decide_false, Bool.false_eq_true, if_false]
      omega
    · simp only [he, hseen, or_false, not_false_eq_true, decide_true, if_true, decide_false,
        Bool.false_eq_true, if_false, length_cons]
      omega

theorem mem_iff_of_closed {y : α} (h : ∀ x ∈ seen, ∀ z ∈ succ x, z ∈ seen ∨ z ∈ []) :
    y ∈ seen ↔ ∃ x, (x ∈ seen ∨ x ∈ []) ∧ Reaches succ x y := by
  have hclosed : ∀ x ∈ seen, ∀ z ∈ succ x, z ∈ seen := fun x hx z hz =>
    (h x hx z hz).resolve_right not_mem_nil
  constructor
  · exact fun hy => ⟨y, .inl hy, .refl⟩
  · rintro ⟨x, hx, hxy⟩
    exact hxy.mem_of_closed hclosed (hx.resolve_right not_mem_nil)

/-- A marked node is not missed when it is taken again. -/
theorem pending_drop {x z : α} {queue : List α} (hx : x ∈ seen) (hz : z ∈ seen ∨ z ∈ x :: queue) :
    z ∈ seen ∨ z ∈ queue := by
  rcases hz with hz | hz
  · exact .inl hz
  · rcases mem_cons.mp hz with rfl | hz
    · exact .inl hx
    · exact .inr hz

theorem pending_insert [LawfulEqCmp cmp] {x z : α} {queue more : List α}
    (hmore : ∀ w ∈ queue, w ∈ more) (hz : z ∈ seen ∨ z ∈ x :: queue) :
    z ∈ seen.insert x ∨ z ∈ more := by
  rw [mem_insert]
  rcases hz with hz | hz
  · exact .inl (.inr hz)
  · rcases mem_cons.mp hz with rfl | hz
    · exact .inl (.inl rfl)
    · exact .inr (hmore z hz)

/-- **Marking what is taken collects what the marked and the queued nodes reach**, if the successors
of marked nodes are marked or queued, and the fuel is enough for the edges of the other nodes. -/
theorem mem_markTaken [LawfulEqCmp cmp] [DecidableEq α] {edges : List (α × α)}
    (hedges : ∀ x, (succ x).length ≤ (edges.filter (·.1 = x)).length) {fuel : Nat} {queue : List α}
    {y : α} (hclosed : ∀ x ∈ seen, ∀ z ∈ succ x, z ∈ seen ∨ z ∈ queue)
    (hfuel : queue.length + (edges.filter (·.1 ∉ seen)).length ≤ fuel) :
    y ∈ markTaken succ fuel queue seen ↔
      ∃ x, (x ∈ seen ∨ x ∈ queue) ∧ Reaches succ x y := by
  induction fuel generalizing queue seen with
  | zero =>
    have hempty : queue = [] := eq_nil_of_length_eq_zero (by omega)
    subst hempty
    exact mem_iff_of_closed hclosed
  | succ fuel ih =>
    cases queue with
    | nil => exact mem_iff_of_closed hclosed
    | cons x queue =>
      unfold markTaken
      rw [length_cons] at hfuel
      by_cases hx : x ∈ seen
      · rw [if_pos hx]
        refine (ih ?_ (by omega)).trans ?_
        · exact fun z hz w hw => pending_drop hx (hclosed z hz w hw)
        · refine exists_congr fun z => and_congr_left fun _ => ?_
          exact ⟨Or.imp_right (mem_cons_of_mem x), pending_drop hx⟩
      rw [if_neg hx]
      refine (ih ?_ ?_).trans ?_
      · intro z hz w hw
        rcases (mem_insert _ _ _).mp hz with rfl | hz
        · exact .inr (mem_append_right _ hw)
        · exact pending_insert (fun _ => mem_append_left _) (hclosed z hz w hw)
      · have hsplit := length_filter_insert hx edges
        have hcount := hedges x
        rw [length_append]
        omega
      · constructor
        · rintro ⟨z, hz, hzy⟩
          rw [mem_insert, mem_append] at hz
          rcases hz with (rfl | hz) | hz | hz
          · exact ⟨z, .inr mem_cons_self, hzy⟩
          · exact ⟨z, .inl hz, hzy⟩
          · exact ⟨z, .inr (mem_cons_of_mem x hz), hzy⟩
          · exact ⟨x, .inr mem_cons_self, (Reaches.step hz).trans hzy⟩
        · rintro ⟨z, hz, hzy⟩
          exact ⟨z, pending_insert (fun _ => mem_append_left _) hz, hzy⟩

/-! ## Searching what is taken -/

def findTaken (succ : α → List α) (found : α → Bool) : Nat → List α → ExtTreeSet α cmp → Bool
  | 0, _, _ => false
  | _ + 1, [], _ => false
  | fuel + 1, x :: stack, seen =>
    if x ∈ seen then findTaken succ found fuel stack seen
    else if found x then true
    else findTaken succ found fuel ((succ x).reverse ++ stack) (seen.insert x)

/-- **A search that finds nothing has looked at all that the stack reaches**, if it has looked at
what is marked, the successors of marked nodes are marked or on the stack, and the fuel is enough
for the edges of the other nodes. -/
theorem findTaken_eq_false [LawfulEqCmp cmp] [DecidableEq α] {found : α → Bool}
    {edges : List (α × α)} (hedges : ∀ x, (succ x).length ≤ (edges.filter (·.1 = x)).length)
    {fuel : Nat} {stack : List α} (hfound : ∀ x ∈ seen, found x = false)
    (hclosed : ∀ x ∈ seen, ∀ z ∈ succ x, z ∈ seen ∨ z ∈ stack)
    (hfuel : stack.length + (edges.filter (·.1 ∉ seen)).length ≤ fuel)
    (h : findTaken succ found fuel stack seen = false) {x y : α} (hx : x ∈ stack)
    (hreach : Reaches succ x y) : found y = false := by
  -- what is reached from the stack or from a marked node, once all is marked, is marked
  suffices hall : ∀ x, x ∈ seen ∨ x ∈ stack → ∀ y, Reaches succ x y → found y = false from
    hall x (.inr hx) y hreach
  clear hx hreach x y
  induction fuel generalizing stack seen with
  | zero =>
    have hempty : stack = [] := eq_nil_of_length_eq_zero (by omega)
    subst hempty
    intro x hx y hreach
    exact hfound y ((mem_iff_of_closed hclosed).mpr ⟨x, hx, hreach⟩)
  | succ fuel ih =>
    cases stack with
    | nil =>
      intro x hx y hreach
      exact hfound y ((mem_iff_of_closed hclosed).mpr ⟨x, hx, hreach⟩)
    | cons x stack =>
      rw [length_cons] at hfuel
      rw [findTaken] at h
      by_cases hx : x ∈ seen
      · rw [if_pos hx] at h
        have hrest := ih hfound (fun z hz w hw => pending_drop hx (hclosed z hz w hw))
          (by omega) h
        exact fun z hz => hrest z (pending_drop hx hz)
      rw [if_neg hx] at h
      split at h
      · cases h
      rename_i hnot
      have hkeep : ∀ z, z ∈ seen ∨ z ∈ x :: stack →
          z ∈ seen.insert x ∨ z ∈ (succ x).reverse ++ stack :=
        fun z => pending_insert fun _ => mem_append_right _
      have hsplit := length_filter_insert hx edges
      have hcount := hedges x
      have hrest : ∀ z, z ∈ seen.insert x ∨ z ∈ (succ x).reverse ++ stack →
          ∀ y, Reaches succ z y → found y = false := by
        refine ih (fun z hz => ?_) (fun z hz w hw => ?_) ?_ h
        · rcases (mem_insert _ _ _).mp hz with rfl | hz
          · exact Bool.eq_false_of_not_eq_true hnot
          · exact hfound z hz
        · rcases (mem_insert _ _ _).mp hz with rfl | hz
          · exact .inr (mem_append_left _ (mem_reverse.mpr hw))
          · exact hkeep w (hclosed z hz w hw)
        · rw [length_append, length_reverse]
          omega
      exact fun z hz => hrest z (hkeep z hz)

end Traverse
