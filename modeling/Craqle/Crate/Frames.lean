import Craqle.Crate.Incremental

/-! # The frames of a reachability walk

`is_reachable` does not remember a negative verdict that skipped an entity of its own path. Where
entities lie on cycles that the root does not reach, it finds such verdicts again on every path, and
opens as many frames as there are paths without repetition: more than the square of the number of
entities (`frames_exceed_square`), and never more than that (`frames_le_paths`).
-/

namespace Craqle

open List
open Backtrack (openFrame opened paths budget)

namespace ReachabilityWalk

/-- The frames that one call of `is_reachable` opens. -/
def framesOpened (cx : RuleContext) (w : ReachabilityWalk) (entity : EncodedTerm) : Nat :=
  if entity = cx.root then 0
  else
    match w.reachable[entity]? with
    | some _ => 0
    | none =>
      if entity ∈ w.visiting then 0
      else
        let parents := fun x => (cx.parents x).toList
        let first := openFrame parents w entity
        1 + opened cx.root parents
          (Backtrack.room cx.partRows.length (cx.partRows.length + 1)) first.1 [first.2] false

/-- **A call opens at most one frame for each path without repetition.** -/
theorem frames_le_paths {cx : RuleContext} (h : cx.Sound) {w : ReachabilityWalk} (hw : Ready cx w)
    {e : EncodedTerm} {entities : List EncodedTerm} (he : e ∈ entities)
    (hrows : ∀ q ∈ cx.partRows, q.subject ∈ entities) :
    framesOpened cx w e ≤ paths entities.length := by
  have hnodes : ∀ x, ∀ p ∈ (cx.parents x).toList, p ∈ entities := by
    intro x p hp
    obtain ⟨q, hq, rfl⟩ := mem_map.mp (parents_subset h x hp)
    exact hrows q hq
  have hunique : ∀ x, (cx.parents x).toList.Nodup := fun x => Ordered.nodup_toList (cx.parents x)
  unfold framesOpened
  split
  · exact Nat.zero_le _
  rename_i hroot
  split
  · exact Nat.zero_le _
  rw [if_neg (hw.visiting e)]
  have hopened := Backtrack.opened_le hunique hnodes
    (Backtrack.room cx.partRows.length (cx.partRows.length + 1)) (start_ok h hw hroot)
    (by simpa [openFrame] using he)
  -- the first frame may try every other entity
  have hothers := Backtrack.length_filter_add_le (nodup_singleton e) (hunique e)
    (by simpa using he) (hnodes e)
  obtain ⟨k, hk⟩ : ∃ k, entities.length = k + 1 :=
    ⟨entities.length - 1, by simp at hothers; omega⟩
  have hbudget : budget entities.length [(openFrame (fun x => (cx.parents x).toList) w e).2] ≤
      k * paths k := by
    simp only [budget, openFrame, hk, map_cons, map_nil, length_nil, Nat.zero_add,
      Nat.add_sub_cancel, Nat.add_zero]
    refine Nat.mul_le_mul_right _ ?_
    rw [hk, length_singleton] at hothers
    omega
  rw [hk, paths]
  exact Nat.add_le_add_left (hopened.trans hbudget) 1

/-! Five entities that are parts of one another, in a crate whose root has no part. -/

def knotEntities : List EncodedTerm :=
  [⟨"<a>".toList⟩, ⟨"<b>".toList⟩, ⟨"<c>".toList⟩, ⟨"<d>".toList⟩, ⟨"<e>".toList⟩]

def knotRows : List Triple :=
  knotEntities.flatMap fun whole =>
    (knotEntities.filter (· ≠ whole)).map fun part => ⟨whole, schemaHasPart, part⟩

def knotContext : RuleContext := .new sampleGraph knotRows []

theorem knot_partRows : ∀ q ∈ knotContext.partRows, q.subject ∈ knotEntities := by
  decide +kernel

set_option maxRecDepth 8000 in
theorem frames_le_paths_knot :
    framesOpened knotContext .new ⟨"<a>".toList⟩ ≤ paths 5 := by
  have hsound : knotContext.Sound := RuleContext.new_sound (by decide +kernel) sampleGraph []
  exact frames_le_paths hsound ready_new (by decide +kernel) knot_partRows

set_option maxRecDepth 8000 in
/-- With the root there are six entities, and sixty-five frames are opened. -/
theorem frames_exceed_square :
    (knotContext.root :: knotEntities).length = 6 ∧
      framesOpened knotContext .new ⟨"<a>".toList⟩ = 65 := by
  exact ⟨rfl, by decide +kernel⟩

end ReachabilityWalk

end Craqle
