import Craqle.Replication.Merge

/-! # Joining a snapshot

`join_snapshot` joins a peer's dump of a graph into the local state. The dump is first brought
into canonical form, so that literal aliases are one quad. Then every quad of either side
keeps the dots that `join_dots` keeps, and the clocks are merged.

`joinUnion` pairs the dots of the two sides (`getElem?_joinUnion`), and `joinRow` is one turn
of the loop of `join_snapshot`. It removes by a clock, which covers whole counter ranges, and
restores the kept dots the clock took with it. `mem_joinRow` shows that what is left is exactly
the joined set.
-/

namespace Craqle

open List Fallible
open Std (ExtTreeMap ExtTreeSet)

/-! ## Canonical snapshots -/

/-- Whether a row spells one of its terms by an alias. -/
def SnapshotQuadState.aliased (ox : Oxrdf) (row : SnapshotQuadState) : Except Panic Bool :=
  row.quad.terms.anyM fun t => (t.canonical ox).map Option.isSome

/-- Put a row's dots under its canonical quad, behind those already there. -/
def groupRow (ox : Oxrdf) (groups : ExtTreeMap Triple (List Dot) compare)
    (row : SnapshotQuadState) : Except Panic (ExtTreeMap Triple (List Dot) compare) :=
  (resolveQuad ox row.quad).map fun key =>
    groups.insert key (groups[key]?.getD [] ++ row.dots)

/-- Merges literal aliases into their canonical quads, like applying the same events would. -/
def canonicalSnapshot (ox : Oxrdf) (s : GraphReplicaSnapshot) :
    Except Panic GraphReplicaSnapshot :=
  match s.quads.anyM (·.aliased ox) with
  | .error p => .error p
  | .ok false => .ok s
  | .ok true =>
    (s.quads.foldlM (groupRow ox) ∅).map fun groups =>
      { s with quads := groups.toList.map fun group =>
          ⟨group.1, (ExtTreeSet.ofList group.2 compare).toList⟩ }

section Canonical

variable {ox : Oxrdf} {raw s : GraphReplicaSnapshot} (h : canonicalSnapshot ox raw = .ok s)
include h

theorem canonicalSnapshot_cases :
    s = raw ∨ ∃ groups, raw.quads.foldlM (groupRow ox) ∅ = .ok groups ∧
      s = { raw with quads := groups.toList.map fun group =>
        ⟨group.1, (ExtTreeSet.ofList group.2 compare).toList⟩ } := by
  unfold canonicalSnapshot at h
  split at h
  · cases h
  · exact .inl (Except.ok.inj h).symm
  · obtain ⟨groups, hgroups, rfl⟩ := map_eq_ok.mp h
    exact .inr ⟨groups, hgroups, rfl⟩

theorem canonicalSnapshot_frame : s.graph = raw.graph ∧ s.clock = raw.clock := by
  obtain rfl | ⟨_, _, rfl⟩ := canonicalSnapshot_cases h
  · exact ⟨rfl, rfl⟩
  · exact ⟨rfl, rfl⟩

/-- What holds of the dots of every row, of two lists behind each other, and of a list in another
order, holds of the dots of the canonical rows. -/
theorem canonicalSnapshot_dots {P : List Dot → Prop} (hrows : ∀ row ∈ raw.quads, P row.dots)
    (happend : ∀ ds ds', P ds → P ds' → P (ds ++ ds'))
    (hsame : ∀ ds ds', (∀ d, d ∈ ds ↔ d ∈ ds') → P ds → P ds') :
    ∀ row ∈ s.quads, P row.dots := by
  obtain rfl | ⟨groups, hgroups, rfl⟩ := canonicalSnapshot_cases h
  · exact hrows
  have hgrouped := foldlM_preserves
    (P := fun groups : ExtTreeMap Triple (List Dot) compare =>
      ∀ (q : Triple) (ds : List Dot), groups[q]? = some ds → P ds)
    (fun row hrow acc next hacc hstep q ds hget => ?_) hgroups (by simp)
  · intro row hrow
    obtain ⟨group, hgroup, rfl⟩ := mem_map.mp hrow
    refine hsame group.2 _ (fun d => ?_)
      (hgrouped group.1 group.2 (ExtTreeMap.mem_toList_iff_getElem?_eq_some.mp hgroup))
    rw [ExtTreeSet.mem_toList, Ordered.mem_ofList]
  · obtain ⟨key, _, rfl⟩ := map_eq_ok.mp hstep
    rw [Ordered.getElem?_insert] at hget
    split at hget
    · rw [← Option.some.inj hget]
      cases hkey : acc[key]? with
      | none => exact hrows row hrow
      | some old => exact happend _ _ (hacc key old hkey) (hrows row hrow)
    · exact hacc q ds hget

end Canonical

/-! ## The join of two snapshots -/

def joinUnion (here there : GraphReplicaSnapshot) :
    ExtTreeMap Triple (List Dot × List Dot) compare :=
  there.quads.foldl
    (fun rows row => rows.insert row.quad ((rows[row.quad]?.getD ([], [])).1, row.dots))
    (here.quads.foldl (fun rows row => rows.insert row.quad (row.dots, [])) ∅)

/-- Dots the OR-Set join keeps for one quad: the dots both sides hold, plus each side's dots
that the other side's clock does not cover. -/
def joinDots (here there : List Dot) (hereClock thereClock : VectorClock) : List Dot :=
  here.filter (fun dot => there.contains dot || !thereClock.contains dot) ++
    there.filter fun dot => !here.contains dot && !hereClock.contains dot

/-- The clock that covers exactly what dropping `dots` needs to cover, and the ranges below. -/
def witnessedOf (dots : List Dot) : VectorClock :=
  dots.foldl (fun clock dot => clock.advance dot.actor dot.counter) VectorClock.new

/-- One quad of the join: the table with its dots replaced, and whether anything changed. -/
def joinRow (ox : Oxrdf) (hereClock thereClock : VectorClock) (acc : QuadTable × Bool)
    (row : Triple × (List Dot × List Dot)) : Except Panic (QuadTable × Bool) :=
  let joined := joinDots row.2.1 row.2.2 hereClock thereClock
  let dropped := row.2.1.filter fun dot => !joined.contains dot
  let added := joined.filter fun dot => !row.2.1.contains dot
  if dropped = [] ∧ added = [] then .ok acc
  else
    (resolveQuad ox row.1).map fun quad =>
      -- adds first: a quad the join keeps must not look removed in between
      let inserted := added.foldl (fun t dot => t.insertQuad quad dot) acc.1
      if dropped = [] then (inserted, true)
      else
        let witnessed := witnessedOf dropped
        let removed := inserted.removeQuad quad witnessed
        ((joined.filter witnessed.contains).foldl (fun t dot => t.insertQuad quad dot) removed,
          true)

/-- Join a snapshot into the state; the flag says whether anything was committed. -/
def joinSnapshot (ox : Oxrdf) (s : GraphState) (snapshot : GraphReplicaSnapshot) :
    GraphState × Except MergeError Bool :=
  match canonicalSnapshot ox snapshot with
  | .error p => (s, .error (.panicked p))
  | .ok there =>
    let here := s.snapshot snapshot.graph
    let clock := here.clock.merge there.clock
    match (joinUnion here there).toList.foldlM (joinRow ox here.clock there.clock)
        (s.quads, decide (clock ≠ here.clock)) with
    | .error p => (s, .error (.panicked p))
    | .ok (quads, changed) =>
      if changed then ({ s with quads := quads, clock := clock }, .ok true) else (s, .ok false)

/-- Validate and install a snapshot handed in by the application. -/
def installWithReceipt (ox : Oxrdf) (s : GraphState) (snapshot : GraphReplicaSnapshot) :
    GraphState × Except MergeError MergeResult :=
  match checkSnapshot ox snapshot with
  | .error e => (s, .error (.inputRejected e))
  | .ok () =>
    if s.tombstone.isSome then (s, .ok ⟨false⟩)
    else
      match joinSnapshot ox (if s.present then s else s.createGraph) snapshot with
      | (s', .ok applied) => (s', .ok ⟨applied⟩)
      | (s', .error e) => (s', .error e)

/-! ## The pairs of the union -/

def dotsAt (rows : List SnapshotQuadState) (q : Triple) : List Dot :=
  ((rows.find? fun row => row.quad = q).map (·.dots)).getD []

variable {rows : List SnapshotQuadState}

theorem dotsAt_of_mem (hnodup : (rows.map (·.quad)).Nodup)
    {row : SnapshotQuadState} (hrow : row ∈ rows) : dotsAt rows row.quad = row.dots := by
  induction rows with
  | nil => simp at hrow
  | cons first rows ih =>
    rw [map_cons, nodup_cons] at hnodup
    unfold dotsAt
    rcases mem_cons.mp hrow with rfl | hrow
    · simp
    · have hne : first.quad ≠ row.quad := by
        intro heq
        exact hnodup.1 (heq ▸ mem_map_of_mem hrow)
      rw [find?_cons_of_neg (by simpa using hne)]
      exact ih hnodup.2 hrow

theorem dotsAt_of_not_mem {q : Triple} (hq : q ∉ rows.map (·.quad)) : dotsAt rows q = [] := by
  unfold dotsAt
  rw [find?_eq_none.mpr]
  · rfl
  · intro row hrow hquad
    exact hq (mem_map.mpr ⟨row, hrow, by simpa using hquad⟩)

theorem mem_dotsAt_iff (hnodup : (rows.map (·.quad)).Nodup)
    {q : Triple} {d : Dot} : d ∈ dotsAt rows q ↔ ∃ row ∈ rows, row.quad = q ∧ d ∈ row.dots := by
  constructor
  · intro hd
    by_cases hq : q ∈ rows.map (·.quad)
    · obtain ⟨row, hrow, rfl⟩ := mem_map.mp hq
      rw [dotsAt_of_mem hnodup hrow] at hd
      exact ⟨row, hrow, rfl, hd⟩
    · rw [dotsAt_of_not_mem hq] at hd
      simp at hd
  · rintro ⟨row, hrow, rfl, hd⟩
    rw [dotsAt_of_mem hnodup hrow]
    exact hd

/-- Laying rows over a map, where what is put may depend on what was there. -/
theorem getElem?_foldl_insert {V : Type} (put : Option V → List Dot → V)
    (rows : List SnapshotQuadState) (hnodup : (rows.map (·.quad)).Nodup)
    (m : ExtTreeMap Triple V compare) (q : Triple) :
    (rows.foldl (fun m row => m.insert row.quad (put m[row.quad]? row.dots)) m)[q]? =
      if q ∈ rows.map (·.quad) then some (put m[q]? (dotsAt rows q)) else m[q]? := by
  induction rows generalizing m with
  | nil => simp
  | cons row rows ih =>
    have hnodup' := hnodup
    rw [map_cons, nodup_cons] at hnodup
    rw [foldl_cons, ih hnodup.2, Ordered.getElem?_insert]
    by_cases hq : q ∈ rows.map (·.quad)
    · have hmem : q ∈ (row :: rows).map (·.quad) := mem_cons_of_mem _ hq
      have hne : row.quad ≠ q := fun heq => hnodup.1 (heq ▸ hq)
      obtain ⟨row', hrow', rfl⟩ := mem_map.mp hq
      rw [if_pos hq, if_pos hmem, if_neg hne, dotsAt_of_mem hnodup.2 hrow',
        dotsAt_of_mem hnodup' (mem_cons_of_mem _ hrow')]
    rw [if_neg hq]
    by_cases heq : row.quad = q
    · subst heq
      have hmem : row.quad ∈ (row :: rows).map (·.quad) := mem_cons_self
      rw [if_pos rfl, if_pos hmem, dotsAt_of_mem hnodup' mem_cons_self]
    have hmem : q ∉ (row :: rows).map (·.quad) := by
      rw [map_cons, mem_cons]
      rintro (h | h)
      · exact heq h.symm
      · exact hq h
    rw [if_neg heq, if_neg hmem]

/-- **The union pairs the dots of the two sides**, for the quads of either side. -/
theorem getElem?_joinUnion {here there : GraphReplicaSnapshot}
    (hhere : (here.quads.map (·.quad)).Nodup) (hthere : (there.quads.map (·.quad)).Nodup)
    (q : Triple) :
    (joinUnion here there)[q]? =
      if q ∈ here.quads.map (·.quad) ∨ q ∈ there.quads.map (·.quad) then
        some (dotsAt here.quads q, dotsAt there.quads q)
      else none := by
  unfold joinUnion
  rw [getElem?_foldl_insert (fun old dots => ((old.getD ([], [])).1, dots)) _ hthere,
    getElem?_foldl_insert (fun _ dots => (dots, [])) _ hhere]
  by_cases ht : q ∈ there.quads.map (·.quad)
  · by_cases hh : q ∈ here.quads.map (·.quad)
    · simp only [if_pos ht, if_pos hh, if_pos (Or.inl hh : _ ∨ _), Option.getD_some]
    · simp only [if_pos ht, if_neg hh, if_pos (Or.inr ht : _ ∨ _)]
      rw [dotsAt_of_not_mem hh]
      simp
  · by_cases hh : q ∈ here.quads.map (·.quad)
    · simp only [if_neg ht, if_pos hh, if_pos (Or.inl hh : _ ∨ _)]
      rw [dotsAt_of_not_mem ht]
    · simp [ht, hh]

theorem of_mem_joinUnion {here there : GraphReplicaSnapshot}
    (hhere : (here.quads.map (·.quad)).Nodup) (hthere : (there.quads.map (·.quad)).Nodup)
    {q : Triple} {pair : List Dot × List Dot} (hrow : (q, pair) ∈ (joinUnion here there).toList) :
    (q ∈ here.quads.map (·.quad) ∨ q ∈ there.quads.map (·.quad)) ∧
      pair = (dotsAt here.quads q, dotsAt there.quads q) := by
  rw [ExtTreeMap.mem_toList_iff_getElem?_eq_some, getElem?_joinUnion hhere hthere,
    Option.ite_none_right_eq_some] at hrow
  exact ⟨hrow.1, (Option.some.inj hrow.2).symm⟩

/-! ## The loop over the union -/

variable {hereClock thereClock : VectorClock}

theorem mem_joinDots {here there : List Dot} {d : Dot} :
    d ∈ joinDots here there hereClock thereClock ↔
      (d ∈ here ∧ (d ∈ there ∨ ¬ thereClock.contains d = true)) ∨
        (d ∈ there ∧ d ∉ here ∧ ¬ hereClock.contains d = true) := by
  simp [joinDots]

theorem mem_foldl_insertQuad (dots : List Dot) (t : QuadTable) (quad q : Triple) (d : Dot) :
    d ∈ (dots.foldl (fun t dot => t.insertQuad quad dot) t).dots q ↔
      d ∈ t.dots q ∨ (quad = q ∧ d ∈ dots) := by
  induction dots generalizing t with
  | nil => simp
  | cons dot dots ih =>
    rw [foldl_cons, ih, QuadTable.mem_dots_insertQuad, mem_cons, or_assoc, ← and_or_left]

theorem contains_witnessedOf {dots : List Dot} {d : Dot} (hd : d ∈ dots) :
    (witnessedOf dots).contains d = true := by
  refine (Updates.foldl_iff_exists (P := fun clock : VectorClock => clock.contains d = true)
    (fun clock dot => VectorClock.contains_advance clock dot.actor dot.counter d) dots _).mpr ?_
  exact .inr ⟨d, hd, rfl, le_rfl⟩

variable {acc : QuadTable × Bool}

/-- One turn of the loop changes nothing, or raises the flag. -/
theorem joinRow_flag {ox : Oxrdf} {next : QuadTable × Bool} {row : Triple × (List Dot × List Dot)}
    (h : joinRow ox hereClock thereClock acc row = .ok next) : next = acc ∨ next.2 = true := by
  unfold joinRow at h
  simp only at h
  split at h
  · exact Or.inl (Except.ok.inj h).symm
  · obtain ⟨quad, _, rfl⟩ := map_eq_ok.mp h
    split
    · exact Or.inr rfl
    · exact Or.inr rfl

/-- **One turn of the loop** leaves the joined dots under a canonical quad whose dots are the
local ones, and every other quad alone. -/
theorem mem_joinRow {ox : Oxrdf} {next : QuadTable × Bool} {q : Triple} {here there : List Dot}
    (h : joinRow ox hereClock thereClock acc (q, here, there) = .ok next)
    (hcanon : resolveQuad ox q = .ok q) (hacc : ∀ d, d ∈ acc.1.dots q ↔ d ∈ here) (q' : Triple)
    (d : Dot) :
    d ∈ next.1.dots q' ↔
      if q = q' then d ∈ joinDots here there hereClock thereClock else d ∈ acc.1.dots q' := by
  unfold joinRow at h
  simp only [hcanon] at h
  set joined := joinDots here there hereClock thereClock with hjoined
  set dropped := here.filter fun dot => !joined.contains dot with hdropped
  set added := joined.filter fun dot => !here.contains dot with hadded
  have hnext : d ∈ next.1.dots q' ↔
      ((d ∈ acc.1.dots q' ∨ (q = q' ∧ d ∈ added)) ∧
        ¬ (q = q' ∧ (witnessedOf dropped).contains d = true)) ∨
      (q = q' ∧ d ∈ joined ∧ (witnessedOf dropped).contains d = true) := by
    -- the clock of no dots covers nothing
    have hnew : (witnessedOf []).contains d = false := rfl
    split at h
    · next hsame =>
      rw [← Except.ok.inj h, hsame.1, hsame.2]
      simp [hnew]
    · obtain ⟨quad, hquad, rfl⟩ := map_eq_ok.mp h
      cases hquad
      split
      · next hnodrop => simp [hnodrop, hnew, mem_foldl_insertQuad]
      · simp only [mem_foldl_insertQuad, QuadTable.mem_dots_removeQuad, mem_filter]
  rw [hnext]
  by_cases hq : q = q'
  · -- the clock takes every dropped dot, and the kept dots it takes are put back
    subst hq
    have hwit : d ∈ dropped → (witnessedOf dropped).contains d = true := contains_witnessedOf
    have mem_dropped : d ∈ dropped ↔ d ∈ here ∧ d ∉ joined := by simp [hdropped]
    have mem_added : d ∈ added ↔ d ∈ joined ∧ d ∉ here := by simp [hadded]
    rw [if_pos rfl, hacc, mem_added]
    by_cases hw : (witnessedOf dropped).contains d = true
    · simp [hw]
    · have hkept : d ∈ here → d ∈ joined := fun hhere =>
        not_not.mp fun hj => hw (hwit (mem_dropped.mpr ⟨hhere, hj⟩))
      by_cases hhere : d ∈ here
      · simp [hw, hhere, hkept hhere]
      · simp [hw, hhere]
  · simp [hq]

/-- **The loop over the union** leaves the joined dots under every quad of it, and every other
quad alone. -/
theorem mem_foldlM_joinRow {ox : Oxrdf} {rows : List (Triple × (List Dot × List Dot))}
    (hkeys : (rows.map Prod.fst).Nodup) (hcanon : ∀ row ∈ rows, resolveQuad ox row.1 = .ok row.1)
    {out : QuadTable × Bool} (hacc : ∀ row ∈ rows, ∀ d, d ∈ acc.1.dots row.1 ↔ d ∈ row.2.1)
    (h : rows.foldlM (joinRow ox hereClock thereClock) acc = .ok out) :
    (∀ row ∈ rows, ∀ d, d ∈ out.1.dots row.1 ↔ d ∈ joinDots row.2.1 row.2.2 hereClock thereClock) ∧
      ∀ q ∉ rows.map Prod.fst, ∀ d, d ∈ out.1.dots q ↔ d ∈ acc.1.dots q := by
  induction rows generalizing acc with
  | nil =>
    cases h
    simp
  | cons row rows ih =>
    obtain ⟨q, here, there⟩ := row
    rw [map_cons, nodup_cons] at hkeys
    obtain ⟨next, hstep, hrest⟩ := foldlM_cons_eq_ok.mp h
    have hrow := mem_joinRow hstep (hcanon _ mem_cons_self) (hacc _ mem_cons_self)
    have hnext : ∀ row ∈ rows, ∀ d, d ∈ next.1.dots row.1 ↔ d ∈ row.2.1 := by
      intro row hmem d
      have hne : q ≠ row.1 := by
        rintro rfl
        exact hkeys.1 (mem_map.mpr ⟨row, hmem, rfl⟩)
      rw [hrow, if_neg hne]
      exact hacc row (mem_cons_of_mem _ hmem) d
    obtain ⟨hin, hout⟩ := ih hkeys.2 (fun row hmem => hcanon row (mem_cons_of_mem _ hmem))
      hnext hrest
    refine ⟨?_, ?_⟩
    · intro row hmem d
      rcases mem_cons.mp hmem with rfl | hmem
      · rw [hout q hkeys.1, hrow, if_pos rfl]
      · exact hin row hmem d
    · intro q' hq' d
      rw [map_cons, mem_cons, not_or] at hq'
      rw [hout q' hq'.2, hrow, if_neg (fun heq => hq'.1 heq.symm)]

end Craqle
