import Craqle.Replication.Convergence
import Craqle.Replication.Snapshot

/-! # The snapshot join is the lattice join

A snapshot whose rows repeat no quad and whose dots its clock covers is an observed-remove
map (`GraphReplicaSnapshot.toCausalMap`), and the join of two of them by `join_union` and
`join_dots`, with the clocks merged, is the least upper bound of the maps
(`toCausalMap_join`). The laws of the join are those of the lattice.

The same lattice join is what `join_snapshot` leaves in the store. Together with
`ObservedRemove.History.Represents.sup` this makes installing a peer's snapshot equal to
merging the peer's batches (`joinSnapshot_eq_merging_union`).
-/

namespace Craqle

open Std (ExtTreeMap ExtTreeSet)
open ObservedRemove List Fallible Ordered VectorClock GraphReplicaSnapshot QuadTable EncodedTerm

/-! ## Snapshots as causal maps -/

namespace GraphReplicaSnapshot

/-- One row for each quad, with dots that the clock has. -/
structure Sound (s : GraphReplicaSnapshot) : Prop where
  nodup : (s.quads.map (·.quad)).Nodup
  covered : ∀ row ∈ s.quads, ∀ d ∈ row.dots, s.clock.contains d = true

def state (s : GraphReplicaSnapshot) : (Triple → DotSet) × VectorClock :=
  (fun q => ExtTreeSet.ofList (dotsAt s.quads q) compare, s.clock)

def join (here there : GraphReplicaSnapshot) : GraphReplicaSnapshot where
  graph := here.graph
  clock := here.clock.merge there.clock
  quads := (joinUnion here there).toList.filterMap fun row =>
    let joined := joinDots row.2.1 row.2.2 here.clock there.clock
    if joined = [] then none else some ⟨row.1, joined⟩

variable {s a b c : GraphReplicaSnapshot}

theorem Sound.covered_dotsAt (h : s.Sound) {q : Triple} {d : Dot} (hd : d ∈ dotsAt s.quads q) :
    s.clock.contains d = true := by
  obtain ⟨row, hrow, _, hdot⟩ := (mem_dotsAt_iff h.nodup).mp hd
  exact h.covered row hrow d hdot

/-- The observed-remove map a sound snapshot describes. -/
def toCausalMap (s : GraphReplicaSnapshot) (h : s.Sound) : CausalMap Triple Dot where
  live q := {d | d ∈ dotsAt s.quads q}
  seen := s.clock.seen
  live_subset _ _ hd := h.covered_dotsAt hd

theorem state_eq_iff (ha : a.Sound) (hb : b.Sound) :
    a.state = b.state ↔ a.toCausalMap ha = b.toCausalMap hb := by
  constructor
  · intro h
    obtain ⟨hdots, hclock⟩ := Prod.mk.inj h
    have hmem : ∀ q d, d ∈ dotsAt a.quads q ↔ d ∈ dotsAt b.quads q := by
      intro q d
      have hleft := mem_ofList compare (dotsAt a.quads q) d
      rw [congrFun hdots q, mem_ofList] at hleft
      exact hleft.symm
    apply CausalMap.ext
    · funext q
      ext d
      exact hmem q d
    · show a.clock.seen = b.clock.seen
      rw [hclock]
  · intro h
    have hlive := congrArg CausalMap.live h
    have hseen := congrArg CausalMap.seen h
    refine Prod.ext (funext fun q => ExtTreeSet.ext_mem fun d => ?_)
      (seen_injective hseen)
    show d ∈ ExtTreeSet.ofList (dotsAt a.quads q) compare ↔
      d ∈ ExtTreeSet.ofList (dotsAt b.quads q) compare
    rw [mem_ofList, mem_ofList]
    exact Set.ext_iff.mp (congrFun hlive q) d

theorem nodup_join (a b : GraphReplicaSnapshot) : ((a.join b).quads.map (·.quad)).Nodup := by
  have hrows := nodup_keys_toList (joinUnion a b)
  unfold join
  rw [map_filterMap]
  rw [List.Nodup, pairwise_map] at hrows
  refine List.Pairwise.filterMap _ ?_ hrows
  intro row row' hne q hq q' hq' heq
  simp only [Option.map_eq_some_iff, Option.ite_none_left_eq_some] at hq hq'
  obtain ⟨_, ⟨_, hrow⟩, rfl⟩ := hq
  obtain ⟨_, ⟨_, hrow'⟩, rfl⟩ := hq'
  cases hrow
  cases hrow'
  exact hne heq

/-- The rows of the join are the non-empty joined dot sets. -/
theorem mem_dotsAt_join (ha : a.Sound) (hb : b.Sound) {q : Triple} {d : Dot} :
    d ∈ dotsAt (a.join b).quads q ↔
      d ∈ joinDots (dotsAt a.quads q) (dotsAt b.quads q) a.clock b.clock := by
  rw [mem_dotsAt_iff (nodup_join a b)]
  have hget := getElem?_joinUnion ha.nodup hb.nodup q
  unfold join
  simp only [mem_filterMap, Option.ite_none_left_eq_some, Option.some.injEq]
  constructor
  · rintro ⟨row, ⟨⟨q', pair⟩, hmem, _, rfl⟩, rfl, hd⟩
    rw [(of_mem_joinUnion ha.nodup hb.nodup hmem).2] at hd
    exact hd
  · intro hd
    -- a quad with a joined dot is a quad of one of the sides
    have hside : q ∈ a.quads.map (·.quad) ∨ q ∈ b.quads.map (·.quad) := by
      by_contra hnone
      rw [not_or] at hnone
      rw [dotsAt_of_not_mem hnone.1, dotsAt_of_not_mem hnone.2] at hd
      simp [joinDots] at hd
    rw [if_pos hside] at hget
    refine ⟨_, ⟨(q, _), ExtTreeMap.mem_toList_iff_getElem?_eq_some.mpr hget, ?_, rfl⟩, rfl, hd⟩
    intro hempty
    rw [hempty] at hd
    simp at hd

theorem Sound.join (ha : a.Sound) (hb : b.Sound) : (a.join b).Sound where
  nodup := nodup_join a b
  covered := by
    intro row hrow d hd
    have hat : d ∈ dotsAt (a.join b).quads row.quad :=
      (mem_dotsAt_iff (nodup_join a b)).mpr ⟨row, hrow, rfl, hd⟩
    show (a.clock.merge b.clock).contains d = true
    rw [contains_merge]
    rcases mem_joinDots.mp ((mem_dotsAt_join ha hb).mp hat) with ⟨hda, _⟩ | ⟨hdb, _⟩
    · exact Or.inl (ha.covered_dotsAt hda)
    · exact Or.inr (hb.covered_dotsAt hdb)

/-- What `join_dots` keeps, in the terms of the lattice: a dot is kept iff some side holds it
and every side whose clock covers it holds it. -/
theorem mem_joinDots_iff {here there : List Dot} {hereClock thereClock : VectorClock} {d : Dot} :
    d ∈ joinDots here there hereClock thereClock ↔
      (d ∈ here ∨ d ∈ there) ∧ (hereClock.contains d = true → d ∈ here) ∧
        (thereClock.contains d = true → d ∈ there) := by
  rw [mem_joinDots]
  constructor
  · rintro (⟨hd, hside⟩ | ⟨hd, hnot, hclock⟩)
    · refine ⟨Or.inl hd, fun _ => hd, fun hc => ?_⟩
      rcases hside with hin | hnc
      · exact hin
      · exact absurd hc hnc
    · exact ⟨Or.inr hd, fun hc => absurd hc hclock, fun _ => hd⟩
  · rintro ⟨hside, hh, ht⟩
    by_cases hd : d ∈ here
    · refine Or.inl ⟨hd, ?_⟩
      by_cases hc : thereClock.contains d = true
      · exact Or.inl (ht hc)
      · exact Or.inr hc
    · have hin : d ∈ there := hside.resolve_left hd
      exact Or.inr ⟨hin, hd, fun hc => hd (hh hc)⟩

/-- **The join of snapshots is the lattice join of the maps they describe.** -/
theorem toCausalMap_join (ha : a.Sound) (hb : b.Sound) :
    (a.join b).toCausalMap (ha.join hb) = a.toCausalMap ha ⊔ b.toCausalMap hb := by
  apply CausalMap.ext
  · funext q
    ext d
    show d ∈ dotsAt (a.join b).quads q ↔ _
    rw [mem_dotsAt_join ha hb, CausalMap.mem_sup_live]
    exact mem_joinDots_iff
  · ext d
    exact contains_merge _ _ _

/-! ## Checked and canonical snapshots -/

/-- Snapshots that were accepted by the ingress check and brought into canonical form. -/
def Installable (ox : Oxrdf) (graph : GraphId) (raw s : GraphReplicaSnapshot) : Prop :=
  raw.graph = graph ∧ checkSnapshot ox raw = .ok () ∧ canonicalSnapshot ox raw = .ok s

/-- **A checked snapshot in canonical form is sound**, and keeps its clock. -/
theorem Installable.sound {ox : Oxrdf} {graph : GraphId} {raw s : GraphReplicaSnapshot}
    (h : Installable ox graph raw s) : s.Sound ∧ s.clock = raw.clock := by
  obtain ⟨_, hcheck, hcanon⟩ := h
  obtain ⟨hnodup, hrows⟩ := checkSnapshot_ok hcheck
  obtain ⟨_, hclock⟩ := canonicalSnapshot_frame hcanon
  refine ⟨⟨?_, ?_⟩, hclock⟩
  · obtain rfl | ⟨groups, _, rfl⟩ := canonicalSnapshot_cases hcanon
    · exact hnodup
    · have hkeys := nodup_keys_toList groups
      simpa [map_map, Function.comp_def] using hkeys
  · rw [hclock]
    exact canonicalSnapshot_dots (P := fun ds => ∀ d ∈ ds, raw.clock.contains d = true) hcanon
      (fun row hrow => (hrows row hrow).covered)
      (fun _ _ hds hds' => forall_mem_append.mpr ⟨hds, hds'⟩)
      fun _ _ hsame hds d hd => hds d ((hsame d).mpr hd)

end GraphReplicaSnapshot

/-! ## Joining what is already known -/

theorem nodup_snapshot (graph : GraphId) (s : GraphState) :
    ((s.snapshot graph).quads.map (·.quad)).Nodup := by
  have hkeys := nodup_keys_toList s.quads.rows
  simpa [GraphState.snapshot, map_map, Function.comp_def] using hkeys

variable {graph : GraphId} {s : GraphState} {q : Triple}

/-- A dump gives every quad its stored dots. -/
theorem mem_dotsAt_snapshot {d : Dot} :
    d ∈ dotsAt (s.snapshot graph).quads q ↔ d ∈ s.quads.dots q := by
  rw [mem_dotsAt_iff (nodup_snapshot graph s)]
  constructor
  · rintro ⟨row, hrow, rfl, hd⟩
    obtain ⟨entry, hentry, rfl⟩ := mem_map.mp hrow
    rw [ExtTreeMap.mem_toList_iff_getElem?_eq_some] at hentry
    simp only [ExtTreeSet.mem_toList] at hd
    unfold dots
    rw [hentry]
    exact hd
  · intro hd
    unfold dots at hd
    cases hrow : s.quads.rows[q]? with
    | none => simp [hrow] at hd
    | some dots =>
      rw [hrow] at hd
      refine ⟨⟨q, dots.toList⟩, mem_map.mpr ⟨(q, dots), ?_, rfl⟩, rfl, ?_⟩
      · exact ExtTreeMap.mem_toList_iff_getElem?_eq_some.mpr hrow
      · exact ExtTreeSet.mem_toList.mpr hd

theorem mem_quads_snapshot :
    q ∈ (s.snapshot graph).quads.map (·.quad) ↔ s.quads.Live q := by
  constructor
  · intro hq
    obtain ⟨row, hrow, rfl⟩ := mem_map.mp hq
    obtain ⟨entry, hentry, rfl⟩ := mem_map.mp hrow
    rw [ExtTreeMap.mem_toList_iff_getElem?_eq_some] at hentry
    unfold QuadTable.Live dots
    rw [hentry]
    exact s.quads.live _ _ hentry
  · intro hlive
    obtain ⟨d, hd⟩ := (live_iff _ _).mp hlive
    have hat : d ∈ dotsAt (s.snapshot graph).quads q := mem_dotsAt_snapshot.mpr hd
    rw [mem_dotsAt_iff (nodup_snapshot graph s)] at hat
    obtain ⟨row, hrow, rfl, _⟩ := hat
    exact mem_map_of_mem hrow

/-- A state contains a snapshot: it has seen every dot the snapshot has, and holds no dot that
the snapshot saw removed. -/
def GraphState.Contains (s : GraphState) (snap : GraphReplicaSnapshot) : Prop :=
  (∀ d, snap.clock.contains d = true → s.clock.contains d = true) ∧
    ∀ q d, d ∈ s.quads.dots q → snap.clock.contains d = true → d ∈ dotsAt snap.quads q

variable {ox : Oxrdf}

theorem joinRow_of_contains {snap : GraphReplicaSnapshot} (hsnap : snap.Sound) (h : s.Contains snap)
    {row : Triple × (List Dot × List Dot)}
    (hrow : row ∈ (joinUnion (s.snapshot graph) snap).toList) (acc : QuadTable × Bool) :
    joinRow ox s.clock snap.clock acc row = .ok acc := by
  obtain ⟨q, here, there⟩ := row
  obtain ⟨_, hpair⟩ := of_mem_joinUnion (nodup_snapshot graph s) hsnap.nodup hrow
  cases hpair
  set here := dotsAt (s.snapshot graph).quads q with hhere
  set joined := joinDots here (dotsAt snap.quads q) s.clock snap.clock with hjoined
  have hsame : ∀ d, d ∈ joined ↔ d ∈ here := by
    intro d
    rw [hjoined, mem_joinDots]
    constructor
    · rintro (⟨hd, _⟩ | ⟨hd, _, hnot⟩)
      · exact hd
      · exact absurd (h.1 d (hsnap.covered_dotsAt hd)) hnot
    · intro hd
      refine Or.inl ⟨hd, ?_⟩
      by_cases hc : snap.clock.contains d = true
      · exact Or.inl (h.2 q d (mem_dotsAt_snapshot.mp hd) hc)
      · exact Or.inr hc
  have hdropped : here.filter (fun dot => !joined.contains dot) = [] := by
    rw [filter_eq_nil_iff]
    intro d hd
    simpa using (hsame d).mpr hd
  have hadded : joined.filter (fun dot => !here.contains dot) = [] := by
    rw [filter_eq_nil_iff]
    intro d hd
    simpa using (hsame d).mp hd
  exact if_pos ⟨hdropped, hadded⟩

/-- **Joining what a state contains changes nothing**, and says so. -/
theorem joinSnapshot_of_contains {raw snap : GraphReplicaSnapshot}
    (hsnap : raw.Installable ox graph snap) (h : s.Contains snap) :
    joinSnapshot ox s raw = (s, .ok false) := by
  have hclock : s.clock.merge snap.clock = s.clock := by
    apply ext_contains
    intro d
    rw [contains_merge]
    exact ⟨fun hd => hd.elim id (h.1 d), Or.inl⟩
  have hrow : ∀ row ∈ (joinUnion (s.snapshot raw.graph) snap).toList, ∀ acc,
      joinRow ox s.clock snap.clock acc row = .ok acc :=
    fun row hrow acc => joinRow_of_contains hsnap.sound.1 h hrow acc
  have hclock' : (s.snapshot raw.graph).clock = s.clock := rfl
  unfold joinSnapshot
  rw [hsnap.2.2]
  simp only [hclock', hclock]
  rw [foldlM_fixed hrow]
  simp

/-- **The join of checked, canonical snapshots of one graph** is commutative, associative and
idempotent on the states they describe, and joining a snapshot into a state that already
contains it, as one that has joined it does, changes nothing. -/
theorem joinSnapshot_semilattice {ox : Oxrdf} {graph : GraphId}
    {rawA rawB rawC a b c : GraphReplicaSnapshot} (ha : rawA.Installable ox graph a)
    (hb : rawB.Installable ox graph b) (hc : rawC.Installable ox graph c) :
    (a.join b).state = (b.join a).state ∧
      ((a.join b).join c).state = (a.join (b.join c)).state ∧
      (a.join a).state = a.state ∧
      ((a.join b).join b).state = (a.join b).state ∧
      ∀ s : GraphState, s.Contains a → joinSnapshot ox s rawA = (s, .ok false) := by
  have sa := ha.sound.1
  have sb := hb.sound.1
  have sc := hc.sound.1
  refine ⟨?_, ?_, ?_, ?_, fun s hs => joinSnapshot_of_contains ha hs⟩
  · rw [state_eq_iff (sa.join sb) (sb.join sa), toCausalMap_join sa sb, toCausalMap_join sb sa,
      sup_comm]
  · rw [state_eq_iff ((sa.join sb).join sc) (sa.join (sb.join sc)),
      toCausalMap_join (sa.join sb) sc, toCausalMap_join sa (sb.join sc), toCausalMap_join sa sb,
      toCausalMap_join sb sc, sup_assoc]
  · rw [state_eq_iff (sa.join sa) sa, toCausalMap_join sa sa, sup_idem]
  · rw [state_eq_iff ((sa.join sb).join sb) (sa.join sb), toCausalMap_join (sa.join sb) sb,
      toCausalMap_join sa sb, sup_assoc, sup_idem]

/-- A dump that holds the sample quad, one that has seen it removed, and one that holds it under
an alias of its literal. -/
def heldSnapshot : GraphReplicaSnapshot :=
  ⟨sampleGraph, VectorClock.new.advance 1 1, [⟨sampleQuad, [⟨1, 1⟩]⟩]⟩

def removedSnapshot : GraphReplicaSnapshot :=
  ⟨sampleGraph, (VectorClock.new.advance 1 1).advance 2 1, []⟩

def aliasSnapshot : GraphReplicaSnapshot :=
  ⟨sampleGraph, VectorClock.new.advance 3 1,
    [⟨{ sampleQuad with object := ⟨"\"\\u0076\"".toList⟩ }, [⟨3, 1⟩]⟩]⟩

def unaliasedSnapshot : GraphReplicaSnapshot :=
  ⟨sampleGraph, VectorClock.new.advance 3 1, [⟨sampleQuad, [⟨3, 1⟩]⟩]⟩

set_option maxRecDepth 4000 in
theorem joinSnapshot_semilattice_alias :
    ((heldSnapshot.join removedSnapshot).join unaliasedSnapshot).state =
        (heldSnapshot.join (removedSnapshot.join unaliasedSnapshot)).state ∧
      joinSnapshot ntriplesOxrdf (deliver ntriplesOxrdf [insertBatch]) heldSnapshot =
        (deliver ntriplesOxrdf [insertBatch], .ok false) := by
  have hheld : heldSnapshot.Installable ntriplesOxrdf sampleGraph heldSnapshot :=
    ⟨rfl, by decide, by decide⟩
  have hremoved : removedSnapshot.Installable ntriplesOxrdf sampleGraph removedSnapshot :=
    ⟨rfl, by decide, by decide⟩
  have halias : aliasSnapshot.Installable ntriplesOxrdf sampleGraph unaliasedSnapshot :=
    ⟨rfl, by decide +kernel, by decide +kernel⟩
  have laws := joinSnapshot_semilattice hheld hremoved halias
  refine ⟨laws.2.1, laws.2.2.2.2 _ ⟨?_, ?_⟩⟩
  · intro d hd
    have hclock : (deliver ntriplesOxrdf [insertBatch]).clock = heldSnapshot.clock := by decide
    rw [hclock]
    exact hd
  intro q d hd _
  have hquads : deliver ntriplesOxrdf [insertBatch] =
      ⟨true, none, empty.insertQuad sampleQuad ⟨1, 1⟩, new.advance 1 1, ∅⟩ := by
    decide
  rw [hquads, mem_dots_insertQuad] at hd
  rcases hd with hd | ⟨rfl, rfl⟩
  · simp at hd
  · decide

/-! ## What a join leaves in the store -/

/-- Every live quad is stored under canonical terms. -/
def GraphState.CanonicalKeys (ox : Oxrdf) (s : GraphState) : Prop :=
  ∀ q, s.quads.Live q → resolveQuad ox q = .ok q

/-- **What `join_snapshot` leaves**: the joined dots under every quad, and the merged clocks. -/
theorem joinSnapshot_eq {raw there : GraphReplicaSnapshot} (hkeys : s.CanonicalKeys ox)
    (hcanon : canonicalSnapshot ox raw = .ok there) (hnodup : (there.quads.map (·.quad)).Nodup)
    (hthere : ∀ row ∈ there.quads, resolveQuad ox row.quad = .ok row.quad) :
    ∃ flag quads, joinSnapshot ox s raw =
        ({ s with quads := quads, clock := s.clock.merge there.clock }, .ok flag) ∧
      ∀ q d, d ∈ quads.dots q ↔
        d ∈ joinDots (dotsAt (s.snapshot raw.graph).quads q) (dotsAt there.quads q) s.clock
          there.clock := by
  set here := s.snapshot raw.graph with hhere
  have hhere_nodup := nodup_snapshot raw.graph s
  have hget := getElem?_joinUnion hhere_nodup hnodup
  have hrow : ∀ row ∈ (joinUnion here there).toList,
      row.2 = (dotsAt here.quads row.1, dotsAt there.quads row.1) ∧
        resolveQuad ox row.1 = .ok row.1 := by
    intro row hmem
    obtain ⟨hside, hpair⟩ := of_mem_joinUnion hhere_nodup hnodup hmem
    refine ⟨hpair, ?_⟩
    rcases hside with hq | hq
    · exact hkeys _ (mem_quads_snapshot.mp hq)
    · obtain ⟨row', hrow', heq⟩ := mem_map.mp hq
      rw [← heq]
      exact hthere row' hrow'
  obtain ⟨⟨quads, flag⟩, hloop⟩ : ∃ out, (joinUnion here there).toList.foldlM
      (joinRow ox s.clock there.clock)
      (s.quads, decide (s.clock.merge there.clock ≠ s.clock)) = .ok out := by
    refine foldlM_total ?_ _
    intro row hmem acc
    unfold joinRow
    simp only
    split
    · exact ⟨_, rfl⟩
    · exact ⟨_, map_eq_ok.mpr ⟨_, (hrow row hmem).2, rfl⟩⟩
  obtain ⟨hin, hout⟩ := mem_foldlM_joinRow (nodup_keys_toList _)
    (fun row hmem => (hrow row hmem).2)
    (fun row hmem d => by
      rw [(hrow row hmem).1]
      exact mem_dotsAt_snapshot.symm) hloop
  have hdots : ∀ q d, d ∈ quads.dots q ↔
      d ∈ joinDots (dotsAt here.quads q) (dotsAt there.quads q) s.clock there.clock := by
    intro q d
    by_cases hq : q ∈ here.quads.map (·.quad) ∨ q ∈ there.quads.map (·.quad)
    · have hmem : (q, dotsAt here.quads q, dotsAt there.quads q) ∈
          (joinUnion here there).toList := by
        rw [ExtTreeMap.mem_toList_iff_getElem?_eq_some, hget, if_pos hq]
      exact hin _ hmem d
    -- a quad of neither side has no dot before or after
    have hnot : q ∉ (joinUnion here there).toList.map Prod.fst := by
      intro hmem
      obtain ⟨row, hrow', rfl⟩ := mem_map.mp hmem
      rw [ExtTreeMap.mem_toList_iff_getElem?_eq_some, hget, if_neg hq] at hrow'
      simp at hrow'
    rw [hout q hnot d]
    rw [not_or] at hq
    rw [dotsAt_of_not_mem hq.2]
    have hempty : d ∉ s.quads.dots q := by
      intro hd
      exact hq.1 (mem_quads_snapshot.mpr ((live_iff _ _).mpr ⟨d, hd⟩))
    have hempty' : d ∉ dotsAt here.quads q := fun hd => hempty (mem_dotsAt_snapshot.mp hd)
    simp [mem_joinDots, hempty, hempty']
  -- a lowered flag means that no turn changed the table and the clocks agree
  have hflag := foldlM_preserves
    (P := fun acc : QuadTable × Bool =>
      acc.2 = false → acc.1 = s.quads ∧ s.clock.merge there.clock = s.clock)
    (fun row (_ : row ∈ (joinUnion here there).toList) acc next hacc hstep hnext => by
      rcases joinRow_flag hstep with rfl | htrue
      · exact hacc hnext
      · rw [hnext] at htrue
        simp at htrue)
    hloop (by
      intro hfalse
      simpa using hfalse)
  have hclock : here.clock = s.clock := rfl
  refine ⟨flag, quads, ?_, hdots⟩
  unfold joinSnapshot
  rw [hcanon]
  simp only [← hhere, hclock]
  rw [hloop]
  cases flag with
  | true => rfl
  | false =>
    obtain ⟨hsame, hmerge⟩ := hflag rfl
    simp only at hsame
    rw [hsame, hmerge]
    rfl

theorem canonicalize_of_resolveQuad {q' : Triple} (h : resolveQuad ox q = .ok q') :
    q.subject.canonicalize ox = .ok q'.subject ∧ q.predicate.canonicalize ox = .ok q'.predicate ∧
      q.object.canonicalize ox = .ok q'.object := by
  unfold resolveQuad at h
  obtain ⟨subject, hs, h⟩ := bind_eq_ok.mp h
  obtain ⟨predicate, hp, h⟩ := bind_eq_ok.mp h
  obtain ⟨object, ho, h⟩ := bind_eq_ok.mp h
  cases h
  exact ⟨hs, hp, ho⟩

theorem resolveQuad_idem {escape : Char → Text} (hox : ox.PrintsNTriples escape)
    {q' : Triple} (h : resolveQuad ox q = .ok q') : resolveQuad ox q' = .ok q' := by
  obtain ⟨hs, hp, ho⟩ := canonicalize_of_resolveQuad h
  unfold resolveQuad
  rw [canonicalize_idem hox hs, canonicalize_idem hox hp,
    canonicalize_idem hox ho]
  rfl

theorem anyM_eq_false {α : Type} {f : α → Except Panic Bool} {l : List α}
    (h : ∀ x ∈ l, f x = .ok false) : l.anyM f = .ok false := by
  induction l with
  | nil => rfl
  | cons x l ih =>
    unfold anyM
    rw [h x mem_cons_self]
    exact ih fun y hy => h y (mem_cons_of_mem _ hy)

theorem canonicalSnapshot_eq_self {s : GraphReplicaSnapshot}
    (h : ∀ row ∈ s.quads, resolveQuad ox row.quad = .ok row.quad) :
    canonicalSnapshot ox s = .ok s := by
  have halias : s.quads.anyM (·.aliased ox) = .ok false := by
    refine anyM_eq_false fun row hrow => anyM_eq_false fun t ht => ?_
    obtain ⟨hs, hp, ho⟩ := canonicalize_of_resolveQuad (h row hrow)
    simp only [Triple.terms, mem_cons, not_mem_nil, or_false] at ht
    rcases ht with rfl | rfl | rfl
    · rw [canonical_eq_none hs]
      rfl
    · rw [canonical_eq_none hp]
      rfl
    · rw [canonical_eq_none ho]
      rfl
  unfold canonicalSnapshot
  rw [halias]

/-! ## Installing a peer's snapshot is merging its batches -/

section Replicas

variable {ox : Oxrdf} {escape : Char → Text} {graph : GraphId} {bs : List Batch}
  {h : WellAuthored ox graph bs} {s s₁ s₂ : GraphState} {A B : Set Dot}

/-- The live quads of a replica are stored under canonical terms: each was resolved when it
was added. -/
theorem Replica.canonicalKeys (hs : Replica h s A) (hox : ox.PrintsNTriples escape) :
    s.CanonicalKeys ox := by
  intro q hlive
  obtain ⟨d, hd⟩ := (live_iff _ _).mp hlive
  obtain ⟨_, ⟨b, _, _, op, _, quad, _, hres⟩, _⟩ := (hs.mem_dots q d).mp hd
  exact resolveQuad_idem hox hres

/-- **The step lemma for snapshots**: joining a replica's snapshot into another leaves a
replica of the union of their events. -/
theorem Replica.joinSnapshot (hox : ox.PrintsNTriples escape) (h₁ : Replica h s₁ A)
    (h₂ : Replica h s₂ B) :
    ∃ flag s', joinSnapshot ox s₁ (s₂.snapshot graph) = (s', .ok flag) ∧ Replica h s' (A ∪ B) ∧
      ∀ q d, d ∈ s'.quads.dots q ↔ (d ∈ s₁.quads.dots q ∨ d ∈ s₂.quads.dots q) ∧
        (s₁.clock.contains d = true → d ∈ s₁.quads.dots q) ∧
        (s₂.clock.contains d = true → d ∈ s₂.quads.dots q) := by
  have hrows : ∀ row ∈ (s₂.snapshot graph).quads, resolveQuad ox row.quad = .ok row.quad := by
    intro row hrow
    exact h₂.canonicalKeys hox _ (mem_quads_snapshot.mp (mem_map_of_mem hrow))
  obtain ⟨flag, quads, heq, hdots⟩ := joinSnapshot_eq (h₁.canonicalKeys hox)
    (canonicalSnapshot_eq_self hrows) (nodup_snapshot graph s₂) hrows
  have hmem : ∀ q d, d ∈ quads.dots q ↔
      (d ∈ s₁.quads.dots q ∨ d ∈ s₂.quads.dots q) ∧
        (s₁.clock.contains d = true → d ∈ s₁.quads.dots q) ∧
        (s₂.clock.contains d = true → d ∈ s₂.quads.dots q) := by
    intro q d
    rw [hdots, mem_joinDots_iff, mem_dotsAt_snapshot, mem_dotsAt_snapshot]
    rfl
  refine ⟨flag, _, heq, ?_, hmem⟩
  set s' : GraphState :=
    { s₁ with quads := quads, clock := s₁.clock.merge (s₂.snapshot graph).clock } with hs'
  have hclock : ∀ d, s'.clock.contains d = true ↔
      s₁.clock.contains d = true ∨ s₂.clock.contains d = true :=
    fun d => contains_merge _ _ _
  have hcovered : s'.Covered := by
    intro q d hd
    rw [hclock]
    exact ((hmem q d).mp hd).1.imp (h₁.covered q d) (h₂.covered q d)
  have hmap : s'.toCausalMap hcovered = s₁.toCausalMap h₁.covered ⊔ s₂.toCausalMap h₂.covered := by
    apply CausalMap.ext
    · funext q
      ext d
      exact hmem q d
    · ext d
      exact hclock d
  refine ⟨h₁.tombstone, hcovered, ?_, ?_⟩
  · rw [hmap]
    exact h₁.represents.sup h₂.represents
  intro d
  rw [hclock, h₁.clock, h₂.clock]
  constructor
  · rintro (⟨e, he, hle⟩ | ⟨e, he, hle⟩)
    · exact ⟨e, Or.inl he, hle⟩
    · exact ⟨e, Or.inr he, hle⟩
  · rintro ⟨e, he | he, hle⟩
    · exact Or.inl ⟨e, he, hle⟩
    · exact Or.inr ⟨e, he, hle⟩

/-- **Installing a snapshot is merging its batches.** Two replicas that merged the batches `S₁`
and `S₂` of one history: joining the second's snapshot into the first leaves the quads, dots
and clock of any replica that merged `S₁ ∪ S₂`, and there is one. In particular a dot one side
has seen and no longer holds is not resurrected, and a dot one side has not seen is not lost. -/
theorem joinSnapshot_eq_merging_union (hox : ox.PrintsNTriples escape)
    (h : WellAuthored ox graph bs) (S₁ S₂ : Set Batch) (hS₁ : ∀ b ∈ S₁, b ∈ bs)
    (hS₂ : ∀ b ∈ S₂, b ∈ bs) (σ₁ σ₂ : List Batch) (h₁ : ∀ b ∈ σ₁, b ∈ S₁) (h₂ : ∀ b ∈ σ₂, b ∈ S₂)
    (acc₁ : ∀ b ∈ S₁, AcceptedIn ox σ₁ b) (acc₂ : ∀ b ∈ S₂, AcceptedIn ox σ₂ b) :
    ∃ flag s', joinSnapshot ox (deliver ox σ₁) ((deliver ox σ₂).snapshot graph) = (s', .ok flag) ∧
      (∀ σ : List Batch, (∀ b ∈ σ, b ∈ S₁ ∪ S₂) → (∀ b ∈ S₁ ∪ S₂, AcceptedIn ox σ b) →
        s'.quads = (deliver ox σ).quads ∧ s'.clock = (deliver ox σ).clock) ∧
      (∃ σ : List Batch, (∀ b ∈ σ, b ∈ S₁ ∪ S₂) ∧ ∀ b ∈ S₁ ∪ S₂, AcceptedIn ox σ b) ∧
      (∀ q d, d ∈ s'.quads.dots q →
        ((deliver ox σ₁).clock.contains d = true → d ∈ (deliver ox σ₁).quads.dots q) ∧
        ((deliver ox σ₂).clock.contains d = true → d ∈ (deliver ox σ₂).quads.dots q)) ∧
      ∀ q d, (d ∈ (deliver ox σ₁).quads.dots q ∧ (deliver ox σ₂).clock.contains d = false) ∨
        (d ∈ (deliver ox σ₂).quads.dots q ∧ (deliver ox σ₁).clock.contains d = false) →
        d ∈ s'.quads.dots q := by
  have r₁ := replica_of_accepted h hS₁ h₁ acc₁
  have r₂ := replica_of_accepted h hS₂ h₂ acc₂
  obtain ⟨flag, s', heq, hs', hmem⟩ := r₁.joinSnapshot hox r₂
  have hS : ∀ b ∈ S₁ ∪ S₂, b ∈ bs := fun b hb => hb.elim (hS₁ b) (hS₂ b)
  rw [← Set.image_union] at hs'
  refine ⟨flag, s', heq, ?_, ⟨σ₁ ++ σ₂, ?_, ?_⟩, ?_, ?_⟩
  · intro σ hσ hacc
    exact hs'.quads_clock_eq (replica_of_accepted h hS hσ hacc)
  · intro b hb
    exact (mem_append.mp hb).imp (h₁ b) (h₂ b)
  · rintro b (hb | hb)
    · obtain ⟨before, after, hσ, hok⟩ := acc₁ b hb
      exact ⟨before, after ++ σ₂, by simp [hσ], hok⟩
    · exact (acc₂ b hb).append_left σ₁
  · intro q d hd
    exact ((hmem q d).mp hd).2
  · rintro q d (⟨hd, hnot⟩ | ⟨hd, hnot⟩)
    · exact (hmem q d).mpr ⟨Or.inl hd, fun _ => hd, fun hc => by simp [hnot] at hc⟩
    · exact (hmem q d).mpr ⟨Or.inr hd, fun hc => by simp [hnot] at hc, fun _ => hd⟩

end Replicas

set_option maxRecDepth 4000 in
/-- A replica that has the add joins one that has also seen it removed. -/
theorem joinSnapshot_eq_merging_union_remove :
    ∃ flag s', joinSnapshot ntriplesOxrdf (deliver ntriplesOxrdf [insertBatch])
        ((deliver ntriplesOxrdf [insertBatch, deleteBatch]).snapshot sampleGraph) = (s', .ok flag) ∧
      s'.quads = (deliver ntriplesOxrdf [insertBatch, deleteBatch]).quads ∧
      s'.clock = (deliver ntriplesOxrdf [insertBatch, deleteBatch]).clock := by
  obtain ⟨states, hrun⟩ := exists_authored_sample
  obtain ⟨flag, s', heq, hunion, _⟩ := joinSnapshot_eq_merging_union ntriplesOxrdf_prints
    hrun.wellAuthored {insertBatch} {insertBatch, deleteBatch} (by simp) (by simp)
    [insertBatch] [insertBatch, deleteBatch] (by simp) (by simp)
    (by rintro b rfl; exact ⟨[], [], rfl, by decide⟩)
    (by
      rintro b (rfl | rfl)
      · exact ⟨[], [deleteBatch], rfl, by decide⟩
      · exact ⟨[insertBatch], [], rfl, by decide⟩)
  refine ⟨flag, s', heq, hunion [insertBatch, deleteBatch] (by simp) ?_⟩
  rintro b (rfl | rfl | rfl)
  · exact ⟨[], [deleteBatch], rfl, by decide⟩
  · exact ⟨[], [deleteBatch], rfl, by decide⟩
  · exact ⟨[insertBatch], [], rfl, by decide⟩

end Craqle
