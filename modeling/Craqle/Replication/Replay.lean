import Craqle.Lib.Rows
import Craqle.Replication.Tombstone

/-! # Replaying history

The content of a graph at some point of its history is computed in three places: the store applies
record after record (`apply_record_locked`), `history_content` folds the records into a map in
memory, and `apply_history` folds them into a snapshot for the repair of a replica.

The three agree on every causally ordered list of records, up to one difference: `apply_history`
counts rows and bytes, and fails where the graph grows past the limits of an envelope at some
point, which the store does not (`replay_agrees`).
-/

namespace Craqle

open QuadTable List Fallible VectorClock TopicNode
open Std (ExtTreeMap)

/-! ## `CraqleNode::history_content` -/

/-- The quads of a graph in memory, with their dots in the order they came. -/
abbrev Quads := ExtTreeMap Triple (List Dot) compare

inductive HistoryError where
  | graphDeleted
  | panicked (panic : Panic)
  deriving DecidableEq

/-- One operation on its canonical key. -/
def historyOp (ox : Oxrdf) (quads : Quads) (op : QuadOp) : Except HistoryError Quads :=
  match resolveQuad ox op.quad with
  | .error panic => .error (.panicked panic)
  | .ok key =>
    match op with
    | .add _ dot =>
      let dots := quads[key]?.getD []
      .ok (quads.insert key (if dot ∈ dots then dots else dots ++ [dot]))
    | .remove _ witnessed =>
      match quads[key]? with
      | none => .ok quads
      | some dots =>
        let kept := dots.filter fun dot => !witnessed.contains dot
        .ok (if kept = [] then quads.erase key else quads.insert key kept)

/-- One record: a malformed one is passed over, a deletion ends the replay. -/
def historyRecord (ox : Oxrdf) (quads : Quads) (record : EventRecord) :
    Except HistoryError Quads :=
  match record.event with
  | .graphDeleted _ => .error .graphDeleted
  | .policy _ _ => .ok quads
  | .mutation graph changes =>
    match batchFromRecord ox graph record.opMeta changes with
    | .error _ => .ok quads
    | .ok b => b.ops.foldlM (historyOp ox) quads

/-- Replays the observed-remove quad set in memory. -/
def historyContent (ox : Oxrdf) (records : List EventRecord) : Except HistoryError Quads :=
  records.foldlM (historyRecord ox) ∅

/-! ## `apply_history` -/

structure HistoryBuild where
  snapshot : GraphReplicaSnapshot
  bytes : Nat

inductive HistoryFailure where
  | outsideBinding
  | malformed (error : UpdateError)
  | byteLimit
  | rowOrByteLimit
  | panicked (panic : Panic)
  deriving DecidableEq

def HistoryFailure.isLimit : HistoryFailure → Bool
  | .byteLimit | .rowOrByteLimit => true
  | _ => false

def Triple.bytes (q : Triple) : Nat :=
  byteLen q.subject.text + byteLen q.predicate.text + byteLen q.object.text

def HistoryBuild.withRows (state : HistoryBuild) (quads : List SnapshotQuadState) (bytes : Nat) :
    HistoryBuild :=
  ⟨{ state.snapshot with quads := quads }, bytes⟩

/-- One operation on the row of its canonical quad; a dot counts forty bytes. -/
def applyHistoryOp (ox : Oxrdf) (state : HistoryBuild) (op : QuadOp) :
    Except HistoryFailure HistoryBuild :=
  match resolveQuad ox op.quad with
  | .error panic => .error (.panicked panic)
  | .ok quad =>
    let rows := state.snapshot.quads
    match op, rows.findIdx? (fun row => row.quad = quad) with
    | .add _ dot, some index =>
      let dots := (rows[index]?.map (·.dots)).getD []
      if dot ∈ dots then .ok state
      else if state.bytes + 40 > maxEnvelopeBytes then .error .byteLimit
      else .ok (state.withRows (rows.set index ⟨quad, dots ++ [dot]⟩) (state.bytes + 40))
    | .add _ dot, none =>
      let added := quad.bytes + 40
      if rows.length ≥ maxEnvelopeRows ∨ state.bytes + added > maxEnvelopeBytes then
        .error .rowOrByteLimit
      else .ok (state.withRows (rows ++ [⟨quad, [dot]⟩]) (state.bytes + added))
    | .remove _ witnessed, some index =>
      let dots := (rows[index]?.map (·.dots)).getD []
      let kept := dots.filter fun dot => !witnessed.contains dot
      let bytes := state.bytes - (dots.length - kept.length) * 40
      if kept = [] then
        .ok (state.withRows (Rows.swapRemove rows index) (bytes - quad.bytes))
      else .ok (state.withRows (rows.set index ⟨quad, kept⟩) bytes)
    | .remove _ _, none => .ok state

/-- One record; the result says whether it deletes the graph. -/
def applyHistory (ox : Oxrdf) (state : HistoryBuild) (record : EventRecord) :
    Except HistoryFailure (HistoryBuild × Bool) :=
  if record.event.graph ≠ state.snapshot.graph then .error .outsideBinding
  else
    match record.event with
    | .graphDeleted _ => .ok (state, true)
    | .policy _ _ => .ok (state, false)
    | .mutation graph changes =>
      match batchFromRecord ox graph record.opMeta changes with
      | .error e => .error (.malformed e)
      | .ok b =>
        (b.ops.foldlM (applyHistoryOp ox) state).map fun state =>
          ({ state with snapshot :=
            { state.snapshot with clock := state.snapshot.clock.advance b.actor b.counter } },
            false)

inductive HistorySnapshot where
  | live (snapshot : GraphReplicaSnapshot)
  | tombstoned

/-- The order of dots in a snapshot. -/
def Dot.le (a b : Dot) : Bool := (compare a b).isLE

def GraphReplicaSnapshot.sorted (s : GraphReplicaSnapshot) : GraphReplicaSnapshot :=
  { s with
    quads := (s.quads.map fun row => { row with dots := row.dots.mergeSort Dot.le }).mergeSort
      fun left right => (compare left.quad right.quad).isLE }

def historyLoop (ox : Oxrdf) : HistoryBuild → List EventRecord → Except HistoryFailure HistorySnapshot
  | state, [] => .ok (.live state.snapshot.sorted)
  | state, record :: records =>
    match applyHistory ox state record with
    | .error e => .error e
    | .ok (_, true) => .ok .tombstoned
    | .ok (state, false) => historyLoop ox state records

def historySnapshot (ox : Oxrdf) (graph : GraphId) (records : List EventRecord) :
    Except HistoryFailure HistorySnapshot :=
  historyLoop ox ⟨⟨graph, VectorClock.new, []⟩, 0⟩ records

/-! ## The store -/

def replay (env : TopicEnv) (topic : TopicId) : TopicNode → List EventRecord → Option TopicNode
  | n, [] => some n
  | n, record :: records =>
    match applyRecordLocked env n topic record with
    | (n', .ok _) => replay env topic n' records
    | (n', .error (.deleted _)) => replay env topic n' records
    | (_, .error _) => none

def EventRecord.dot (r : EventRecord) : Dot := ⟨r.opMeta.actor, r.opMeta.actorSeq⟩

/-- What a record's operation has seen, itself included. -/
def EventRecord.context (r : EventRecord) : VectorClock :=
  r.opMeta.observedClock.advance r.opMeta.actor r.opMeta.actorSeq

/-- Nothing comes after a record that has seen it. -/
def CausallyOrdered (records : List EventRecord) : Prop :=
  records.Pairwise fun earlier later => earlier.context.contains later.dot = false

/-! ## The map in memory -/

variable {ox : Oxrdf}

/-- The map has the rows of the table, with every dot once. -/
structure MapShows (quads : Quads) (t : QuadTable) : Prop where
  mem : ∀ (q : Triple) (d : Dot), d ∈ quads[q]?.getD [] ↔ d ∈ t.dots q
  nodup : ∀ (q : Triple) (dots : List Dot), quads[q]? = some dots → dots.Nodup
  nonempty : ∀ (q : Triple) (dots : List Dot), quads[q]? = some dots → dots ≠ []

theorem mapShows_empty : MapShows ∅ QuadTable.empty where
  mem q d := by simp
  nodup q dots h := by simp at h
  nonempty q dots h := by simp at h

namespace MapShows

variable {quads : Quads} {t : QuadTable}

variable (h : MapShows quads t)
include h

theorem nodup_getD (q : Triple) : (quads[q]?.getD []).Nodup := by
  cases hq : quads[q]? with
  | none => exact nodup_nil
  | some dots => exact h.nodup q dots hq

/-- Write one row, or drop it. -/
theorem write {t' : QuadTable} {quads' : Quads} {key : Triple} {row : Option (List Dot)}
    (hget : ∀ q : Triple, quads'[q]? = if key = q then row else quads[q]?)
    (hrow : ∀ dots, row = some dots → dots.Nodup ∧ dots ≠ [])
    (hkey : ∀ d, d ∈ row.getD [] ↔ d ∈ t'.dots key)
    (hsame : ∀ q, key ≠ q → ∀ d, d ∈ t'.dots q ↔ d ∈ t.dots q) : MapShows quads' t' := by
  have hrows : ∀ (q : Triple) (dots : List Dot), quads'[q]? = some dots →
      dots.Nodup ∧ dots ≠ [] := by
    intro q dots hq
    rw [hget] at hq
    split_ifs at hq
    · exact hrow dots hq
    · exact ⟨h.nodup q dots hq, h.nonempty q dots hq⟩
  refine ⟨fun q d => ?_, fun q dots hq => (hrows q dots hq).1, fun q dots hq => (hrows q dots hq).2⟩
  rw [hget]
  by_cases hq : key = q
  · subst hq
    rw [if_pos rfl]
    exact hkey d
  · rw [if_neg hq, h.mem, hsame q hq]

/-- Put a row that is not empty. -/
theorem insert {t' : QuadTable} {key : Triple} {dots : List Dot}
    (hnodup : dots.Nodup) (hne : dots ≠ []) (hkey : ∀ d, d ∈ dots ↔ d ∈ t'.dots key)
    (hsame : ∀ q, key ≠ q → ∀ d, d ∈ t'.dots q ↔ d ∈ t.dots q) :
    MapShows (quads.insert key dots) t' := by
  refine h.write (fun q => Ordered.getElem?_insert _ _ _ _) ?_ hkey hsame
  rintro _ ⟨⟩
  exact ⟨hnodup, hne⟩

theorem add (key : Triple) (dot : Dot) :
    MapShows (quads.insert key
      (if dot ∈ quads[key]?.getD [] then quads[key]?.getD [] else quads[key]?.getD [] ++ [dot]))
      (t.insertQuad key dot) := by
  have hnodup := h.nodup_getD key
  have hsame : ∀ q, key ≠ q → ∀ d, d ∈ (t.insertQuad key dot).dots q ↔ d ∈ t.dots q := by
    intro q hq d
    simp [mem_dots_insertQuad, hq]
  by_cases hmem : dot ∈ quads[key]?.getD []
  · rw [if_pos hmem]
    refine h.insert hnodup (ne_nil_of_mem hmem) (fun d => ?_) hsame
    rw [mem_dots_insertQuad, h.mem key d]
    constructor
    · exact Or.inl
    · rintro (hd | ⟨_, rfl⟩)
      · exact hd
      · exact (h.mem key _).mp hmem
  · rw [if_neg hmem]
    refine h.insert ?_ (by simp) (fun d => ?_) hsame
    · simpa using List.Nodup.concat hmem hnodup
    · rw [mem_dots_insertQuad, mem_append, mem_singleton, h.mem key d]
      simp

theorem remove {key : Triple} {dots : List Dot} (hrow : quads[key]? = some dots) (w : VectorClock) :
    MapShows (if dots.filter (fun dot => !w.contains dot) = [] then quads.erase key
      else quads.insert key (dots.filter fun dot => !w.contains dot)) (t.removeQuad key w) := by
  have hdots : ∀ d, d ∈ dots ↔ d ∈ t.dots key := by
    intro d
    rw [← h.mem key d, hrow, Option.getD_some]
  have hkept : ∀ d, d ∈ dots.filter (fun dot => !w.contains dot) ↔
      d ∈ (t.removeQuad key w).dots key := by
    intro d
    rw [mem_dots_removeQuad, mem_filter, hdots]
    simp
  have hsame : ∀ q, key ≠ q → ∀ d, d ∈ (t.removeQuad key w).dots q ↔ d ∈ t.dots q := by
    intro q hq d
    simp [mem_dots_removeQuad, hq]
  split_ifs with hnil
  · refine h.write (fun q => Ordered.getElem?_erase _ _ _) nofun (fun d => ?_) hsame
    rw [← hkept, hnil, Option.getD_none]
  · exact h.insert ((h.nodup key dots hrow).filter _) hnil hkept hsame

end MapShows

/-- **One operation in memory follows the store.** -/
theorem historyOp_follows (op : QuadOp) (t t' : QuadTable) (quads : Quads) (h : MapShows quads t)
    (hop : applyOp ox t op = .ok t') :
    ∃ quads', historyOp ox quads op = .ok quads' ∧ MapShows quads' t' := by
  obtain ⟨key, hkey, rfl⟩ := map_eq_ok.mp hop
  unfold historyOp
  rw [hkey]
  cases op with
  | add q dot => exact ⟨_, rfl, h.add key dot⟩
  | remove q w =>
    simp only
    cases hrow : quads[key]? with
    | some dots => exact ⟨_, rfl, h.remove hrow w⟩
    | none =>
      -- a quad without a row has no dot to remove
      refine ⟨quads, rfl, fun q d => ?_, h.nodup, h.nonempty⟩
      rw [h.mem, mem_dots_removeQuad]
      constructor
      · intro hd
        refine ⟨hd, ?_⟩
        rintro ⟨rfl, _⟩
        rw [← h.mem, hrow] at hd
        simp at hd
      · exact And.left

/-! ## The rows of a snapshot -/

/-- The rows of a snapshot are those of a table. -/
def RowsShow (rows : List SnapshotQuadState) (t : QuadTable) : Prop :=
  Rows.Lists SnapshotQuadState.quad SnapshotQuadState.dots (fun q d => d ∈ t.dots q) rows

/-- What `apply_history` counts for the rows. -/
def rowsBytes (rows : List SnapshotQuadState) : Nat :=
  (rows.map fun row => row.quad.bytes + row.dots.length * 40).sum

/-- The rows of a table in the store's order. -/
def QuadTable.listing (t : QuadTable) : List SnapshotQuadState :=
  t.rows.toList.map fun row => ⟨row.1, row.2.toList⟩

/-- The table is within the limits of an envelope. -/
def QuadTable.Fits (t : QuadTable) : Prop :=
  t.listing.length ≤ maxEnvelopeRows ∧ rowsBytes t.listing ≤ maxEnvelopeBytes

theorem rowsShow_listing (t : QuadTable) : RowsShow t.listing t := by
  have hrow : ∀ row ∈ t.listing, ∃ dots, t.rows[row.quad]? = some dots ∧ row.dots = dots.toList := by
    intro row hrow
    obtain ⟨⟨q, dots⟩, hmem, rfl⟩ := mem_map.mp hrow
    exact ⟨dots, ExtTreeMap.mem_toList_iff_getElem?_eq_some.mp hmem, rfl⟩
  refine ⟨?_, ?_, ?_, ?_, ?_⟩
  · have hkeys : t.listing.map SnapshotQuadState.quad = t.rows.keys := by
      rw [← ExtTreeMap.map_fst_toList_eq_keys, listing, map_map]
      rfl
    rw [hkeys]
    exact ExtTreeMap.nodup_keys
  · intro row h
    obtain ⟨dots, _, hdots⟩ := hrow row h
    rw [hdots]
    exact Ordered.nodup_toList dots
  · intro row h hnil
    obtain ⟨dots, hstored, hdots⟩ := hrow row h
    rw [hdots, Std.ExtTreeSet.toList_eq_nil_iff] at hnil
    exact t.live _ _ hstored hnil
  · intro row h d
    obtain ⟨dots, hstored, hdots⟩ := hrow row h
    rw [hdots, Std.ExtTreeSet.mem_toList, QuadTable.dots, hstored, Option.getD_some]
  · intro q d hd
    rw [QuadTable.dots] at hd
    cases hstored : t.rows[q]? with
    | none => simp [hstored] at hd
    | some dots =>
      exact mem_map.mpr ⟨⟨q, dots.toList⟩,
        mem_map.mpr ⟨(q, dots), ExtTreeMap.mem_toList_iff_getElem?_eq_some.mpr hstored, rfl⟩,
        rfl⟩

/-- The state of a build: the rows of the table and their size, under an unchanged header. -/
structure HistoryBuild.Shows (state : HistoryBuild) (graph : GraphId) (clock : VectorClock)
    (t : QuadTable) : Prop where
  graph : state.snapshot.graph = graph
  clock : state.snapshot.clock = clock
  rows : RowsShow state.snapshot.quads t
  bytes : state.bytes = rowsBytes state.snapshot.quads

section Build

variable {state : HistoryBuild} {graph : GraphId} {clock : VectorClock} {t t' : QuadTable}

/-- The build measures the table it stands for. -/
theorem HistoryBuild.Shows.fits_iff (h : state.Shows graph clock t) :
    t.Fits ↔ state.snapshot.quads.length ≤ maxEnvelopeRows ∧ state.bytes ≤ maxEnvelopeBytes := by
  have hlen := Rows.Lists.length_eq (rowsShow_listing t) h.rows
  have hsum := Rows.Lists.sum_eq (rowsShow_listing t) h.rows fun q n => q.bytes + n * 40
  unfold Fits
  rw [hlen, h.bytes]
  unfold rowsBytes
  rw [hsum]

variable {rows : List SnapshotQuadState}

theorem HistoryBuild.Shows.withRows (h : state.Shows graph clock t)
    (bytes : Nat) (hrows : RowsShow rows t') (hbytes : bytes = rowsBytes rows) :
    (state.withRows rows bytes).Shows graph clock t' :=
  ⟨h.graph, h.clock, hrows, hbytes⟩

theorem rowsBytes_append (rows rows' : List SnapshotQuadState) :
    rowsBytes (rows ++ rows') = rowsBytes rows + rowsBytes rows' := by
  simp [rowsBytes]

theorem rowsBytes_cons (row : SnapshotQuadState) (rows : List SnapshotQuadState) :
    rowsBytes (row :: rows) = row.quad.bytes + row.dots.length * 40 + rowsBytes rows := by
  simp [rowsBytes]

/-- An operation on a build: it follows the store, or the store is past the limits. -/
def FollowsOrStops (result : Except HistoryFailure HistoryBuild) (graph : GraphId)
    (clock : VectorClock) (t' : QuadTable) : Prop :=
  (t'.Fits ∧ ∃ state', result = .ok state' ∧ state'.Shows graph clock t') ∨
    (¬ t'.Fits ∧ ∃ e : HistoryFailure, result = .error e ∧ e.isLimit = true)

/-- The size check of an add decides whether the table after it fits. -/
theorem followsOrStops_of_check {state' : HistoryBuild} {e : HistoryFailure} {exceeds : Prop}
    [Decidable exceeds] (hnext : state'.Shows graph clock t') (hlimit : e.isLimit = true)
    (hover : exceeds ↔ ¬ (state'.snapshot.quads.length ≤ maxEnvelopeRows ∧
      state'.bytes ≤ maxEnvelopeBytes)) :
    FollowsOrStops (if exceeds then .error e else .ok state') graph clock t' := by
  by_cases h : exceeds
  · rw [if_pos h]
    exact Or.inr ⟨fun hfits => hover.mp h (hnext.fits_iff.mp hfits), e, rfl, hlimit⟩
  · rw [if_neg h]
    exact Or.inl ⟨hnext.fits_iff.mpr (not_not.mp fun hn => h (hover.mpr hn)), state', rfl, hnext⟩

/-- A row of the build, found at its position. -/
theorem RowsShow.exists_row {quad : Triple} {index : Nat} (h : RowsShow rows t)
    (hfind : rows.findIdx? (fun row => row.quad = quad) = some index) :
    ∃ before dots after, rows = before ++ ⟨quad, dots⟩ :: after ∧ before.length = index ∧
      (rows[index]?.map (·.dots)).getD [] = dots ∧
      (∀ row : SnapshotQuadState, rows.set index row = before ++ row :: after) ∧
      RowsShow (before ++ ⟨quad, dots⟩ :: after) t ∧ dots.Nodup ∧
      ∀ d, d ∈ dots ↔ d ∈ t.dots quad := by
  obtain ⟨before, ⟨q, dots⟩, after, rfl, rfl, hquad⟩ := Rows.exists_split_of_findIdx? hfind
  obtain rfl : q = quad := by simpa using hquad
  exact ⟨before, dots, after, rfl, rfl, by simp, fun row => by simp, h,
    h.nodup ⟨q, dots⟩ (by simp), h.sound ⟨q, dots⟩ (by simp)⟩

section

variable (h : state.Shows graph clock t) (hfits : t.Fits)
include h hfits

theorem followsOrStops_same {op : QuadOp}
    (hsame : ∀ q d, d ∈ t'.dots q ↔ d ∈ t.dots q) (hok : applyHistoryOp ox state op = .ok state) :
    FollowsOrStops (applyHistoryOp ox state op) graph clock t' := by
  obtain rfl : t' = t := ext_dots hsame
  exact Or.inl ⟨hfits, state, hok, h⟩

theorem followsOrStops_add {q quad : Triple} {dot : Dot} (hquad : resolveQuad ox q = .ok quad) :
    FollowsOrStops (applyHistoryOp ox state (.add q dot)) graph clock (t.insertQuad quad dot) := by
  have hbound := h.fits_iff.mp hfits
  have hsame : ∀ k, k ≠ quad → ∀ d, d ∈ (t.insertQuad quad dot).dots k ↔ d ∈ t.dots k := by
    intro k hk d
    simp [mem_dots_insertQuad, hk.symm]
  cases hfind : state.snapshot.quads.findIdx? (fun row => row.quad = quad) with
  | none =>
    -- a new row
    have hnew := Rows.key_ne_of_findIdx? hfind
    have hnone : ∀ d, ¬ d ∈ t.dots quad := by
      intro d hd
      obtain ⟨row, hrow, hkey⟩ := mem_map.mp (h.rows.complete quad d hd)
      exact hnew row hrow hkey
    have hold : RowsShow (state.snapshot.quads ++ []) t := by
      rw [append_nil]
      exact h.rows
    have hrows : RowsShow (state.snapshot.quads ++ [⟨quad, [dot]⟩]) (t.insertQuad quad dot) := by
      refine Rows.Lists.insert hold ?_ (nodup_singleton dot) (cons_ne_nil dot []) ?_ hsame
      · rw [append_nil]
        exact hnew
      · intro d
        simp [mem_dots_insertQuad, hnone d]
    have hnext := h.withRows (state.bytes + (quad.bytes + 40)) hrows (by
      rw [rowsBytes_append, h.bytes, rowsBytes_cons]
      simp [rowsBytes])
    unfold applyHistoryOp
    simp only [QuadOp.quad, hquad, hfind]
    refine followsOrStops_of_check hnext rfl ?_
    simp only [HistoryBuild.withRows, length_append, length_singleton]
    omega
  | some index =>
    obtain ⟨before, dots, after, hsplit, rfl, hdots, hset, hlist, hnodup, hmem⟩ :=
      RowsShow.exists_row h.rows hfind
    by_cases hdot : dot ∈ dots
    · refine followsOrStops_same h hfits (fun k d => ?_) ?_
      · rw [mem_dots_insertQuad]
        constructor
        · rintro (hd | ⟨rfl, rfl⟩)
          · exact hd
          · exact (hmem d).mp hdot
        · exact Or.inl
      · unfold applyHistoryOp
        simp only [QuadOp.quad, hquad, hfind, hdots, if_pos hdot]
    · -- one more dot in the row
      have hrows : RowsShow (before ++ ⟨quad, dots ++ [dot]⟩ :: after) (t.insertQuad quad dot) := by
        refine Rows.Lists.replace hlist rfl ?_ (by simp) (fun d => ?_) hsame
        · simpa using List.Nodup.concat hdot hnodup
        · rw [mem_dots_insertQuad, mem_append, mem_singleton, hmem]
          simp
      have hnext := h.withRows (state.bytes + 40) hrows (by
        rw [h.bytes, hsplit]
        simp only [rowsBytes_append, rowsBytes_cons, length_append, length_singleton]
        omega)
      have hlen : state.snapshot.quads.length = (before ++ ⟨quad, dots ++ [dot]⟩ :: after).length := by
        rw [hsplit]
        simp
      unfold applyHistoryOp
      simp only [QuadOp.quad, hquad, hfind, hdots, if_neg hdot, hset]
      refine followsOrStops_of_check hnext rfl ?_
      simp only [HistoryBuild.withRows]
      omega

theorem followsOrStops_remove {q quad : Triple} {w : VectorClock} (hquad : resolveQuad ox q = .ok quad) :
    FollowsOrStops (applyHistoryOp ox state (.remove q w)) graph clock (t.removeQuad quad w) := by
  have hbound := h.fits_iff.mp hfits
  have hsame : ∀ k, k ≠ quad → ∀ d, d ∈ (t.removeQuad quad w).dots k ↔ d ∈ t.dots k := by
    intro k hk d
    simp [mem_dots_removeQuad, hk.symm]
  cases hfind : state.snapshot.quads.findIdx? (fun row => row.quad = quad) with
  | none =>
    have hnew := Rows.key_ne_of_findIdx? hfind
    refine followsOrStops_same h hfits (fun k d => ?_) ?_
    · rw [mem_dots_removeQuad]
      constructor
      · exact And.left
      · intro hd
        refine ⟨hd, ?_⟩
        rintro ⟨rfl, _⟩
        obtain ⟨row, hrow, hkey⟩ := mem_map.mp (h.rows.complete quad d hd)
        exact hnew row hrow hkey
    · unfold applyHistoryOp
      simp [QuadOp.quad, hquad, hfind]
  | some index =>
    obtain ⟨before, dots, after, hsplit, rfl, hdots, hset, hlist, hnodup, hmem⟩ :=
      RowsShow.exists_row h.rows hfind
    have hkept : ∀ d, d ∈ dots.filter (fun dot => !w.contains dot) ↔
        d ∈ (t.removeQuad quad w).dots quad := by
      intro d
      rw [mem_dots_removeQuad, mem_filter, hmem]
      simp
    have hle : (dots.filter fun dot => !w.contains dot).length ≤ dots.length := length_filter_le _ _
    have hbytes : state.bytes = rowsBytes before + (quad.bytes + dots.length * 40 +
        rowsBytes after) := by
      rw [h.bytes, hsplit, rowsBytes_append, rowsBytes_cons]
    have hcount : state.snapshot.quads.length = before.length + (after.length + 1) := by
      rw [hsplit]
      simp
    by_cases hnil : dots.filter (fun dot => !w.contains dot) = []
    · -- the row goes, and the last one takes its place
      have hrows : RowsShow (before ++ after) (t.removeQuad quad w) := by
        refine Rows.Lists.drop hlist (fun d hd => ?_) hsame
        rw [← hkept, hnil] at hd
        simp at hd
      have hperm := Rows.swapRemove_perm before ⟨quad, dots⟩ after
      have hnext := h.withRows (state.bytes - dots.length * 40 - quad.bytes)
        (Rows.Lists.perm hrows hperm.symm) (by
          rw [rowsBytes, (hperm.map _).sum_eq, ← rowsBytes, rowsBytes_append, hbytes]
          omega)
      refine Or.inl ⟨hnext.fits_iff.mpr ?_, _, ?_, hnext⟩
      · simp only [HistoryBuild.withRows, hperm.length_eq, length_append]
        omega
      · unfold applyHistoryOp
        simp only [QuadOp.quad, hquad, hfind, hdots, hnil, if_true, length_nil, Nat.sub_zero]
        rw [hsplit]
    · have hrows : RowsShow
          (before ++ ⟨quad, dots.filter fun dot => !w.contains dot⟩ :: after)
          (t.removeQuad quad w) :=
        Rows.Lists.replace hlist rfl (hnodup.filter _) hnil hkept hsame
      have hnext := h.withRows (state.bytes -
        (dots.length - (dots.filter fun dot => !w.contains dot).length) * 40) hrows (by
          rw [rowsBytes_append, rowsBytes_cons, hbytes]
          simp only
          omega)
      refine Or.inl ⟨hnext.fits_iff.mpr ?_, _, ?_, hnext⟩
      · simp only [HistoryBuild.withRows, length_append, length_cons]
        omega
      · unfold applyHistoryOp
        simp only [QuadOp.quad, hquad, hfind, hdots, if_neg hnil, hset]

/-- **One operation on a build follows the store**, up to the limits. -/
theorem applyHistoryOp_follows {op : QuadOp} (hop : applyOp ox t op = .ok t') :
    FollowsOrStops (applyHistoryOp ox state op) graph clock t' := by
  obtain ⟨quad, hquad, rfl⟩ := map_eq_ok.mp hop
  cases op with
  | add q dot => exact followsOrStops_add h hfits hquad
  | remove q w => exact followsOrStops_remove h hfits hquad

end

/-! ### Lists of operations -/

variable (ox) in
/-- The rows fit the limits after each of the operations. -/
def WithinLimits (t : QuadTable) (ops : List QuadOp) : Prop :=
  ∀ before t', before <+: ops → applyOps ox t before = .ok t' → t'.Fits

theorem withinLimits_nil : WithinLimits ox t [] ↔ t.Fits := by
  constructor
  · exact fun h => h [] t prefix_rfl rfl
  · intro h before t' hpre happly
    obtain rfl := prefix_nil.mp hpre
    cases happly
    exact h

theorem withinLimits_cons {op : QuadOp} {ops : List QuadOp} (h : applyOp ox t op = .ok t') :
    WithinLimits ox t (op :: ops) ↔ t.Fits ∧ WithinLimits ox t' ops := by
  constructor
  · intro hlimits
    refine ⟨hlimits [] t ( nil_prefix ..) rfl, fun before u hpre happly => ?_⟩
    exact hlimits (op :: before) u ((prefix_cons_inj op).mpr hpre)
      (foldlM_cons_eq_ok.mpr ⟨t', h, happly⟩)
  · rintro ⟨hfits, hrest⟩ before u hpre happly
    cases before with
    | nil => exact withinLimits_nil.mpr hfits [] u prefix_rfl happly
    | cons first before =>
      obtain ⟨rfl, hrun⟩ := cons_prefix_cons.mp hpre
      obtain ⟨next, hop, happly⟩ := foldlM_cons_eq_ok.mp happly
      rw [h, Except.ok.injEq] at hop
      exact hrest before u hrun (hop ▸ happly)

theorem withinLimits_append {ops rest : List QuadOp} (h : applyOps ox t ops = .ok t') :
    WithinLimits ox t (ops ++ rest) ↔ WithinLimits ox t ops ∧ WithinLimits ox t' rest := by
  induction ops generalizing t with
  | nil =>
    cases h
    rw [nil_append, withinLimits_nil, iff_and_self]
    exact fun hrest => hrest [] _ ( nil_prefix ..) rfl
  | cons op ops ih =>
    obtain ⟨next, hop, hops⟩ := foldlM_cons_eq_ok.mp h
    rw [cons_append, withinLimits_cons hop, withinLimits_cons hop, ih hops, and_assoc]

/-- **A run of operations on a build follows the store**, up to the limits. -/
theorem foldlM_applyHistoryOp {ops : List QuadOp} (h : state.Shows graph clock t)
    (hfits : t.Fits) (hops : applyOps ox t ops = .ok t') :
    (WithinLimits ox t ops ∧ ∃ state', ops.foldlM (applyHistoryOp ox) state = .ok state' ∧
      state'.Shows graph clock t') ∨
    (¬ WithinLimits ox t ops ∧ ∃ e : HistoryFailure,
      ops.foldlM (applyHistoryOp ox) state = .error e ∧ e.isLimit = true) := by
  induction ops generalizing state t with
  | nil =>
    cases hops
    exact Or.inl ⟨withinLimits_nil.mpr hfits, state, rfl, h⟩
  | cons op ops ih =>
    obtain ⟨next, hop, hrest⟩ := foldlM_cons_eq_ok.mp hops
    rw [foldlM_cons, withinLimits_cons hop]
    rcases applyHistoryOp_follows h hfits hop with ⟨hfits', state', hok, hnext⟩ |
      ⟨hexceeds, e, herror, hlimit⟩
    · rw [hok]
      rcases ih hnext hfits' hrest with ⟨hwithin, hloop⟩ | ⟨hexceeds, hloop⟩
      · exact Or.inl ⟨⟨hfits, hwithin⟩, hloop⟩
      · exact Or.inr ⟨fun hw => hexceeds hw.2, hloop⟩
    · rw [herror]
      exact Or.inr ⟨fun hw => hexceeds (hw.2 [] next ( nil_prefix ..) rfl), e, rfl, hlimit⟩

end Build

/-! ## Records -/

variable (ox) in
/-- The operations of the records, up to a deletion. -/
def historyOps : List EventRecord → List QuadOp
  | [] => []
  | record :: records =>
    match record.event with
    | .graphDeleted _ => []
    | .policy _ _ => historyOps records
    | .mutation graph changes =>
      match batchFromRecord ox graph record.opMeta changes with
      | .error _ => historyOps records
      | .ok b => b.ops ++ historyOps records

variable {env : TopicEnv} {n n' : TopicNode} {topic : TopicId} {graph : GraphId}
  {record : EventRecord} {records : List EventRecord}

structure ReadyFor (n : TopicNode) (graph : GraphId) (records : List EventRecord) : Prop where
  live : (n.graphs graph).tombstone = none
  fresh : ∀ r ∈ records, (n.graphs graph).clock.contains r.dot = false

/-- The ways a record of a live graph is replayed. -/
inductive RecordReplayed (ox : Oxrdf) (graph : GraphId) (s s' : GraphState) (record : EventRecord) : Prop
  | policy (tag : PolicyTag) : record.event = .policy graph tag → s'.quads = s.quads →
      s'.clock = s.clock → s'.tombstone = none → RecordReplayed ox graph s s' record
  | mutation (changes : List MaterializedQuadChange) (b : Batch) :
      record.event = .mutation graph changes →
      batchFromRecord ox graph record.opMeta changes = .ok b →
      applyOps ox s.quads b.ops = .ok s'.quads →
      s'.clock = s.clock.advance record.opMeta.actor record.opMeta.actorSeq →
      b.actor = record.opMeta.actor → b.counter = record.opMeta.actorSeq →
      s'.tombstone = none → RecordReplayed ox graph s s' record

/-- A live graph does not reject a record as one of a deleted graph. -/
theorem replayed_of_live (hlive : (n.graphs graph).tombstone = none)
    (hfresh : (n.graphs graph).clock.contains record.dot = false)
    (hgraph : record.event.graph = graph) (hkept : ∀ t, record.event ≠ .graphDeleted t)
    (hresult : (∃ applied, (applyRecordLocked env n topic record).2 = .ok applied) ∨
      ∃ t, (applyRecordLocked env n topic record).2 = .error (.deleted t)) :
    RecordReplayed env.ox graph (n.graphs graph) ((applyRecordLocked env n topic record).1.graphs graph)
      record := by
  cases hevent : record.event with
  | graphDeleted t => exact absurd hevent (hkept t)
  | policy g tag =>
    obtain rfl : g = graph := by rw [← hgraph, hevent]; rfl
    unfold applyRecordLocked
    simp only [hevent, hlive]
    split_ifs
    · exact .policy tag hevent rfl rfl hlive
    · exact .policy tag hevent rfl rfl hlive
    · exact .policy tag hevent rfl rfl hlive
    · have hset : (n.setPolicy g tag).graphs g = (n.graphs g).createGraph := by
        exact TopicNode.graphs_setGraph_self ..
      rw [hset]
      exact .policy tag hevent rfl rfl hlive
  | mutation g changes =>
    obtain rfl : g = graph := by rw [← hgraph, hevent]; rfl
    unfold applyRecordLocked at hresult ⊢
    simp only [hevent, hlive] at hresult ⊢
    cases hbatch : batchFromRecord env.ox g record.opMeta changes with
    | error e => simp [hbatch] at hresult
    | ok b =>
      simp only [hbatch] at hresult ⊢
      have hb := batchFromRecord_eq hbatch
      have hid : b.identity = record.dot := by
        rw [hb]
        rfl
      rcases applyIroklePlan_cases env.ox (n.graphs g) b with ⟨hsome, _⟩ | ⟨_, hseen, _⟩ |
        ⟨_, _, p, _, heq⟩ | ⟨_, _, quads, hops, heq⟩
      · rw [hlive] at hsome
        simp at hsome
      · -- the clock has not seen the record
        rw [hid, hfresh] at hseen
        simp at hseen
      · simp [heq] at hresult
      · simp only [heq, TopicNode.graphs_setGraph_self]
        exact .mutation changes b hevent hbatch hops (by rw [hb]) (by rw [hb]) (by rw [hb]) hlive

theorem ReadyFor.step {s' : GraphState} (h : ReadyFor n graph (record :: records))
    (hordered : CausallyOrdered (record :: records))
    (hstep : RecordReplayed env.ox graph (n.graphs graph) s' record) (hn' : n'.graphs graph = s') :
    ReadyFor n' graph records := by
  have hold : ∀ r ∈ records, (n.graphs graph).clock.contains r.dot = false := fun r hr =>
    h.fresh r (mem_cons_of_mem _ hr)
  cases hstep with
  | policy tag _ _ hclock htomb =>
    refine ⟨hn' ▸ htomb, fun r hr => ?_⟩
    rw [hn', hclock]
    exact hold r hr
  | mutation changes b _ _ _ hclock _ _ htomb =>
    refine ⟨hn' ▸ htomb, fun r hr => ?_⟩
    have hafter := rel_of_pairwise_cons hordered hr
    rw [hn', hclock, Bool.eq_false_iff]
    intro hcontains
    rcases (contains_advance _ _ _ _).mp hcontains with hseen | ⟨hactor, hle⟩
    · rw [hold r hr] at hseen
      simp at hseen
    · -- a later record of the same actor has a greater number
      rw [Bool.eq_false_iff] at hafter
      exact hafter ((contains_advance _ _ _ _).mpr (Or.inr ⟨hactor, hle⟩))

theorem replay_cons_some (h : replay env topic n (record :: records) = some n') :
    replay env topic (applyRecordLocked env n topic record).1 records = some n' ∧
      ((∃ applied, (applyRecordLocked env n topic record).2 = .ok applied) ∨
        ∃ t, (applyRecordLocked env n topic record).2 = .error (.deleted t)) := by
  unfold replay at h
  split at h
  · next heq =>
    rw [heq]
    exact ⟨h, Or.inl ⟨_, rfl⟩⟩
  · next heq =>
    rw [heq]
    exact ⟨h, Or.inr ⟨_, rfl⟩⟩
  · simp at h

/-- A deleted graph stays deleted. -/
theorem Buried.replay {tombstone : GraphTombstone} {policy : PolicyTag}
    (h : Buried n graph tombstone policy)
    (hreplay : replay env topic n records = some n') : Buried n' graph tombstone policy := by
  induction records generalizing n with
  | nil =>
    cases hreplay
    exact h
  | cons record records ih => exact ih h.step (replay_cons_some hreplay).1

theorem replay_cons (hready : ReadyFor n graph (record :: records))
    (hordered : CausallyOrdered (record :: records)) (hgraph : record.event.graph = graph)
    (hreplay : replay env topic n (record :: records) = some n') :
    ((∃ t, record.event = .graphDeleted t) ∧ (n'.graphs graph).tombstone.isSome = true) ∨
    ∃ n₁, RecordReplayed env.ox graph (n.graphs graph) (n₁.graphs graph) record ∧
      ReadyFor n₁ graph records ∧ replay env topic n₁ records = some n' := by
  obtain ⟨hrest, hresult⟩ := replay_cons_some hreplay
  by_cases hdel : ∃ t, record.event = .graphDeleted t
  · left
    refine ⟨hdel, ?_⟩
    obtain ⟨t, ht⟩ := hdel
    have hburied : Buried (applyRecordLocked env n topic record).1 graph t (n.policyTag graph) := by
      refine buried_of_deletion hready.live ?_
      rw [ht] at hgraph
      have htgraph : t.graph = graph := hgraph
      simp [deletion, ht, htgraph]
    rw [(hburied.replay hrest).tombstone]
    rfl
  · right
    have hstep := replayed_of_live hready.live (hready.fresh record mem_cons_self) hgraph
      (fun t ht => hdel ⟨t, ht⟩) hresult
    exact ⟨_, hstep, hready.step hordered hstep rfl, hrest⟩

/-! ## The three replays -/

/-- **The map in memory follows the store** to the end, or both find the graph deleted. -/
theorem foldlM_historyRecord {quads : Quads} (hshows : MapShows quads (n.graphs graph).quads)
    (hready : ReadyFor n graph records) (hordered : CausallyOrdered records)
    (hgraph : ∀ r ∈ records, r.event.graph = graph)
    (hreplay : replay env topic n records = some n') :
    ((n'.graphs graph).tombstone.isSome = true ∧
      records.foldlM (historyRecord env.ox) quads = .error .graphDeleted) ∨
    ((n'.graphs graph).tombstone = none ∧ ∃ quads',
      records.foldlM (historyRecord env.ox) quads = .ok quads' ∧
      MapShows quads' (n'.graphs graph).quads) := by
  induction records generalizing n quads with
  | nil =>
    cases hreplay
    exact Or.inr ⟨hready.live, quads, rfl, hshows⟩
  | cons record records ih =>
    rw [foldlM_cons]
    rcases replay_cons hready hordered (hgraph record mem_cons_self) hreplay with
      ⟨⟨t, ht⟩, hdead⟩ | ⟨n₁, hstep, hready₁, hreplay₁⟩
    · refine Or.inl ⟨hdead, ?_⟩
      simp only [historyRecord, ht]
      rfl
    have hrest : ∀ r ∈ records, r.event.graph = graph := fun r hr =>
      hgraph r (mem_cons_of_mem _ hr)
    have hordered₁ : CausallyOrdered records := List.Pairwise.of_cons hordered
    cases hstep with
    | policy tag hevent hquads _ _ =>
      rw [← hquads] at hshows
      simp only [historyRecord, hevent]
      exact ih hshows hready₁ hordered₁ hrest hreplay₁
    | mutation changes b hevent hbatch hops _ _ _ _ =>
      obtain ⟨quads₁, hloop, hshows₁⟩ :=
        foldlM_follows (R := fun t quads => MapShows quads t)
          (fun op t t' quads => historyOp_follows op t t' quads) hshows hops
      simp only [historyRecord, hevent, hbatch, hloop]
      exact ih hshows₁ hready₁ hordered₁ hrest hreplay₁

theorem rowsShow_sorted {s : GraphReplicaSnapshot} {t : QuadTable} (h : RowsShow s.quads t) :
    RowsShow s.sorted.quads t := by
  have hdots : RowsShow (s.quads.map fun row => { row with dots := row.dots.mergeSort Dot.le }) t :=
    Rows.Lists.map h (fun _ => rfl) fun row => mergeSort_perm row.dots Dot.le
  exact Rows.Lists.perm hdots (mergeSort_perm _ _).symm

/-- **The build follows the store** to the end, unless a table on the way is past the limits. -/
theorem historyLoop_follows {state : HistoryBuild}
    (hshows : state.Shows graph (n.graphs graph).clock (n.graphs graph).quads)
    (hfits : (n.graphs graph).quads.Fits) (hready : ReadyFor n graph records)
    (hordered : CausallyOrdered records) (hgraph : ∀ r ∈ records, r.event.graph = graph)
    (hreplay : replay env topic n records = some n') :
    (WithinLimits env.ox (n.graphs graph).quads (historyOps env.ox records) ∧
      (((n'.graphs graph).tombstone.isSome = true ∧
        historyLoop env.ox state records = .ok .tombstoned) ∨
      ((n'.graphs graph).tombstone = none ∧ ∃ snapshot,
        historyLoop env.ox state records = .ok (.live snapshot) ∧ snapshot.graph = graph ∧
        snapshot.clock = (n'.graphs graph).clock ∧
        RowsShow snapshot.quads (n'.graphs graph).quads))) ∨
    (¬ WithinLimits env.ox (n.graphs graph).quads (historyOps env.ox records) ∧
      ∃ e : HistoryFailure, historyLoop env.ox state records = .error e ∧ e.isLimit = true) := by
  induction records generalizing n state with
  | nil =>
    cases hreplay
    exact Or.inl ⟨withinLimits_nil.mpr hfits, Or.inr ⟨hready.live, _, rfl, hshows.graph,
      hshows.clock, rowsShow_sorted hshows.rows⟩⟩
  | cons record records ih =>
    have hbound : ¬ record.event.graph ≠ state.snapshot.graph := by
      rw [hshows.graph]
      exact not_not.mpr (hgraph record mem_cons_self)
    unfold historyLoop applyHistory
    rw [if_neg hbound]
    rcases replay_cons hready hordered (hgraph record mem_cons_self) hreplay with
      ⟨⟨t, ht⟩, hdead⟩ | ⟨n₁, hstep, hready₁, hreplay₁⟩
    · simp only [historyOps, ht]
      exact Or.inl ⟨withinLimits_nil.mpr hfits, Or.inl ⟨hdead, trivial⟩⟩
    have hrest : ∀ r ∈ records, r.event.graph = graph := fun r hr =>
      hgraph r (mem_cons_of_mem _ hr)
    have hordered₁ : CausallyOrdered records := List.Pairwise.of_cons hordered
    cases hstep with
    | policy tag hevent hquads hclock _ =>
      rw [← hquads, ← hclock] at hshows
      rw [← hquads] at hfits ⊢
      simp only [historyOps, hevent]
      exact ih hshows hfits hready₁ hordered₁ hrest hreplay₁
    | mutation changes b hevent hbatch hops hclock hactor hcounter _ =>
      simp only [historyOps, hevent, hbatch]
      rw [withinLimits_append hops]
      rcases foldlM_applyHistoryOp hshows hfits hops with ⟨hwithin, state', hloop, hshows'⟩ |
        ⟨hexceeds, e, hloop, hlimit⟩
      · have hfits₁ : (n₁.graphs graph).quads.Fits := hwithin b.ops _ prefix_rfl hops
        have hshows₁ : HistoryBuild.Shows { state' with snapshot := { state'.snapshot with
            clock := state'.snapshot.clock.advance b.actor b.counter } } graph
            (n₁.graphs graph).clock (n₁.graphs graph).quads := by
          refine ⟨hshows'.graph, ?_, hshows'.rows, hshows'.bytes⟩
          rw [hclock, hactor, hcounter, hshows'.clock]
        simp only [hloop, Except.map]
        rcases ih hshows₁ hfits₁ hready₁ hordered₁ hrest hreplay₁ with
          ⟨hlater, hresult⟩ | ⟨hlater, hresult⟩
        · exact Or.inl ⟨⟨hwithin, hlater⟩, hresult⟩
        · exact Or.inr ⟨fun hw => hlater hw.2, hresult⟩
      · simp only [hloop, Except.map]
        exact Or.inr ⟨fun hw => hexceeds hw.1, e, rfl, hlimit⟩

theorem fits_empty : QuadTable.empty.Fits := by
  have hnil : QuadTable.empty.listing = [] := by simp [listing, QuadTable.empty]
  unfold Fits
  rw [hnil]
  decide

/-- **The replays of a history agree with the store.** For a causally ordered list of records that
an empty graph accepts, the replay in memory has the store's quads and dots, and finds the graph
deleted exactly when the store has a tombstone. So has the replay into a snapshot, with the store's
clock, if the graph is within the limits of an envelope all the way; otherwise it fails for
them. -/
theorem replay_agrees (hlive : (n.graphs graph).tombstone = none)
    (hquads : (n.graphs graph).quads = QuadTable.empty)
    (hclock : (n.graphs graph).clock = VectorClock.new)
    (hgraph : ∀ r ∈ records, r.event.graph = graph) (hordered : CausallyOrdered records)
    (hreplay : replay env topic n records = some n') :
    (historyContent env.ox records = .error .graphDeleted ↔
      (n'.graphs graph).tombstone.isSome = true) ∧
    ((n'.graphs graph).tombstone = none → ∃ quads,
      historyContent env.ox records = .ok quads ∧ MapShows quads (n'.graphs graph).quads) ∧
    (WithinLimits env.ox QuadTable.empty (historyOps env.ox records) →
      (historySnapshot env.ox graph records = .ok .tombstoned ↔
        (n'.graphs graph).tombstone.isSome = true) ∧
      ((n'.graphs graph).tombstone = none → ∃ snapshot,
        historySnapshot env.ox graph records = .ok (.live snapshot) ∧
        snapshot.clock = (n'.graphs graph).clock ∧
        RowsShow snapshot.quads (n'.graphs graph).quads)) ∧
    (¬ WithinLimits env.ox QuadTable.empty (historyOps env.ox records) →
      ∃ e : HistoryFailure, historySnapshot env.ox graph records = .error e ∧ e.isLimit = true) := by
  have hready : ReadyFor n graph records := by
    refine ⟨hlive, fun r _ => ?_⟩
    rw [hclock]
    exact contains_new _
  have hmap : MapShows ∅ (n.graphs graph).quads := hquads ▸ mapShows_empty
  have hbuild : HistoryBuild.Shows ⟨⟨graph, new, []⟩, 0⟩ graph
      (n.graphs graph).clock (n.graphs graph).quads := by
    refine ⟨rfl, hclock.symm, ?_, rfl⟩
    rw [hquads]
    exact Rows.Lists.nil fun q d => by simp
  have hfits : (n.graphs graph).quads.Fits := hquads ▸ fits_empty
  have hsnapshot := historyLoop_follows hbuild hfits hready hordered hgraph hreplay
  rw [hquads] at hsnapshot
  unfold historyContent historySnapshot
  have hmemory : (records.foldlM (historyRecord env.ox) ∅ = .error .graphDeleted ↔
      (n'.graphs graph).tombstone.isSome = true) ∧
      ((n'.graphs graph).tombstone = none → ∃ quads,
        records.foldlM (historyRecord env.ox) ∅ = .ok quads ∧
        MapShows quads (n'.graphs graph).quads) := by
    rcases foldlM_historyRecord hmap hready hordered hgraph hreplay with
      ⟨hdead, hresult⟩ | ⟨halive, quads, hresult, hshown⟩
    · refine ⟨iff_of_true hresult hdead, fun halive => ?_⟩
      simp [halive] at hdead
    · refine ⟨?_, fun _ => ⟨quads, hresult, hshown⟩⟩
      simp [hresult, halive]
  refine ⟨hmemory.1, hmemory.2, fun hwithin => ?_, fun hexceeds => ?_⟩
  · rcases hsnapshot with ⟨_, ⟨hdead, hresult⟩ | ⟨halive, snapshot, hresult, _, hshown⟩⟩ |
      ⟨hexceeds, _⟩
    · refine ⟨iff_of_true hresult hdead, fun halive => ?_⟩
      simp [halive] at hdead
    · refine ⟨?_, fun _ => ⟨snapshot, hresult, hshown⟩⟩
      simp [hresult, halive]
    · exact absurd hwithin hexceeds
  · rcases hsnapshot with ⟨hwithin, _⟩ | ⟨_, hfailed⟩
    · exact absurd hwithin hexceeds
    · exact hfailed

/-! ### A quad that is inserted again and again -/

/-- The `i`-th insert of one quad by one actor, after all earlier ones. -/
def refresh (i : Nat) : EventRecord where
  opId := 0
  opMeta := ⟨1, i + 1, VectorClock.new.advance 1 i⟩
  event := .mutation sampleGraph [.insert sampleGraph sampleQuad]

theorem causallyOrdered_refresh (m : Nat) : CausallyOrdered ((List.range m).map refresh) := by
  refine pairwise_map.mpr (pairwise_lt_range.imp fun {i j} hij => ?_)
  rw [Bool.eq_false_iff]
  intro hcontains
  have hle : j + 1 ≤ i ∨ j + 1 ≤ i + 1 := by
    have hcases := (contains_advance _ _ _ _).mp hcontains
    rw [refresh, contains_advance, contains_new] at hcases
    simpa [refresh, EventRecord.dot] using hcases
  omega

theorem batchFromRecord_refresh (i : Nat) :
    batchFromRecord ntriplesOxrdf sampleGraph (refresh i).opMeta
        [.insert sampleGraph sampleQuad] =
      .ok ⟨sampleGraph, 1, i + 1, VectorClock.new.advance 1 i, [.add sampleQuad ⟨1, i + 1⟩]⟩ := by
  have hcheck : checkChanges ntriplesOxrdf [.insert sampleGraph sampleQuad] = .ok () := by
    decide +kernel
  unfold batchFromRecord
  rw [hcheck]
  rfl

theorem resolveQuad_sampleQuad : resolveQuad ntriplesOxrdf sampleQuad = .ok sampleQuad := by
  decide +kernel

/-- A live graph accepts every one of them. -/
theorem exists_replay_refresh (is : List Nat) (n : TopicNode)
    (hlive : (n.graphs sampleGraph).tombstone = none) :
    ∃ n', replay sampleTopicEnv 7 n (is.map refresh) = some n' ∧
      (n'.graphs sampleGraph).tombstone = none := by
  induction is generalizing n with
  | nil => exact ⟨n, rfl, hlive⟩
  | cons i is ih =>
    have hstep : ∃ n₁ applied,
        applyRecordLocked sampleTopicEnv n 7 (refresh i) = (n₁, .ok applied) ∧
        (n₁.graphs sampleGraph).tombstone = none := by
      have hevent : (refresh i).event = .mutation sampleGraph [.insert sampleGraph sampleQuad] :=
        rfl
      unfold applyRecordLocked
      simp only [hevent, hlive, sampleTopicEnv, batchFromRecord_refresh]
      rcases applyIroklePlan_cases ntriplesOxrdf (n.graphs sampleGraph) ⟨sampleGraph, 1, i + 1,
          new.advance 1 i, [.add sampleQuad ⟨1, i + 1⟩]⟩ with
        ⟨hsome, _⟩ | ⟨_, _, heq⟩ | ⟨_, _, p, hpanic, _⟩ | ⟨_, _, quads, _, heq⟩
      · rw [hlive] at hsome
        simp at hsome
      · rw [heq]
        exact ⟨_, _, rfl, by rw [graphs_setGraph_self]; exact hlive⟩
      · simp [applyOps, applyOp, QuadOp.quad, resolveQuad_sampleQuad, Except.map, bind,
          Except.bind, pure, Except.pure] at hpanic
      · rw [heq]
        exact ⟨_, _, rfl, by rw [graphs_setGraph_self]; exact hlive⟩
    obtain ⟨n₁, applied, hok, hlive₁⟩ := hstep
    obtain ⟨n', hreplay, hlive'⟩ := ih n₁ hlive₁
    refine ⟨n', ?_, hlive'⟩
    rw [map_cons, replay, hok]
    exact hreplay

theorem replay_agrees_refresh :
    ∃ n', replay sampleTopicEnv 7 TopicNode.empty ((List.range 2).map refresh) = some n' ∧
      (n'.graphs sampleGraph).tombstone = none ∧
      ∃ quads, historyContent ntriplesOxrdf ((List.range 2).map refresh) = .ok quads ∧
        MapShows quads (n'.graphs sampleGraph).quads := by
  obtain ⟨n', hreplay, hlive⟩ := exists_replay_refresh (range 2) empty rfl
  have hgraph : ∀ r ∈ (range 2).map refresh, r.event.graph = sampleGraph :=
    forall_mem_map.mpr fun _ _ => rfl
  have hagrees := replay_agrees (n := empty) rfl rfl rfl hgraph
    (causallyOrdered_refresh 2) hreplay
  exact ⟨n', hreplay, hlive, hagrees.2.1 hlive⟩

theorem applyHistory_refresh (clock : VectorClock) (rows : List SnapshotQuadState) (bytes i : Nat) :
    applyHistory ntriplesOxrdf ⟨⟨sampleGraph, clock, rows⟩, bytes⟩ (refresh i) =
      (applyHistoryOp ntriplesOxrdf ⟨⟨sampleGraph, clock, rows⟩, bytes⟩
        (.add sampleQuad ⟨1, i + 1⟩)).map fun state =>
          (⟨{ state.snapshot with clock := state.snapshot.clock.advance 1 (i + 1) }, state.bytes⟩,
            false) := by
  have hgraph : ¬ (refresh i).event.graph ≠ sampleGraph := fun h => h rfl
  have hevent : (refresh i).event = .mutation sampleGraph [.insert sampleGraph sampleQuad] := rfl
  unfold applyHistory
  rw [if_neg hgraph]
  simp only [hevent, batchFromRecord_refresh, foldlM_cons, foldlM_nil]
  cases applyHistoryOp ntriplesOxrdf ⟨⟨sampleGraph, clock, rows⟩, bytes⟩
      (.add sampleQuad ⟨1, i + 1⟩) with
  | error e => rfl
  | ok state => rfl

/-- One more insert of the quad adds forty bytes to the build, if they fit. -/
theorem applyHistory_refresh_again {clock : VectorClock} {dots : List Dot} {i bytes : Nat}
    (hnew : (⟨1, i + 1⟩ : Dot) ∉ dots) :
    applyHistory ntriplesOxrdf ⟨⟨sampleGraph, clock, [⟨sampleQuad, dots⟩]⟩, bytes⟩ (refresh i) =
      if bytes + 40 > maxEnvelopeBytes then .error .byteLimit
      else .ok (⟨⟨sampleGraph, clock.advance 1 (i + 1), [⟨sampleQuad, dots ++ [⟨1, i + 1⟩]⟩]⟩,
        bytes + 40⟩, false) := by
  have hfind : [(⟨sampleQuad, dots⟩ : SnapshotQuadState)].findIdx?
      (fun row => row.quad = sampleQuad) = some 0 := by
    simp
  have hrow : ([(⟨sampleQuad, dots⟩ : SnapshotQuadState)][0]?.map (·.dots)).getD [] = dots := rfl
  rw [applyHistory_refresh]
  unfold applyHistoryOp
  simp only [QuadOp.quad, resolveQuad_sampleQuad, hfind, hrow, if_neg hnew]
  split_ifs
  · rfl
  · rfl

theorem historyLoop_refresh {clock : VectorClock} {dots : List Dot} {first count bytes : Nat}
    (hdots : ∀ d ∈ dots, d.counter ≤ first) (hbytes : bytes ≤ maxEnvelopeBytes)
    (hlong : bytes + count * 40 > maxEnvelopeBytes) :
    historyLoop ntriplesOxrdf ⟨⟨sampleGraph, clock, [⟨sampleQuad, dots⟩]⟩, bytes⟩
      ((List.range' first count).map refresh) = .error .byteLimit := by
  induction count generalizing clock dots first bytes with
  | zero => omega
  | succ count ih =>
    have hnew : (⟨1, first + 1⟩ : Dot) ∉ dots := by
      intro hmem
      have hle := hdots _ hmem
      simp at hle
    rw [range'_succ, map_cons, historyLoop, applyHistory_refresh_again hnew]
    by_cases hfull : bytes + 40 > maxEnvelopeBytes
    · simp only [if_pos hfull]
    simp only [if_neg hfull]
    refine ih (fun d hd => ?_) (by omega) (by omega)
    rcases mem_append.mp hd with hd | hd
    · have := hdots d hd
      omega
    · rw [mem_singleton] at hd
      rw [hd]

/-- **The limits are a difference**: the store accepts a causal history of one quad that the replay
into a snapshot gives up on. -/
theorem history_outgrows_limit :
    ∃ records n', CausallyOrdered records ∧ (∀ r ∈ records, r.event.graph = sampleGraph) ∧
      replay sampleTopicEnv 7 TopicNode.empty records = some n' ∧
      (n'.graphs sampleGraph).tombstone = none ∧
      historySnapshot ntriplesOxrdf sampleGraph records = .error .byteLimit := by
  obtain ⟨n', hreplay, hlive⟩ := exists_replay_refresh (range 1677722) empty rfl
  refine ⟨(range 1677722).map refresh, n', causallyOrdered_refresh _,
    forall_mem_map.mpr fun _ _ => rfl, hreplay, hlive, ?_⟩
  have hfirst : applyHistory ntriplesOxrdf ⟨⟨sampleGraph, new, []⟩, 0⟩ (refresh 0) =
      .ok (⟨⟨sampleGraph, new.advance 1 1, [⟨sampleQuad, [⟨1, 1⟩]⟩]⟩,
        sampleQuad.bytes + 40⟩, false) := by
    rw [applyHistory_refresh]
    unfold applyHistoryOp
    simp only [QuadOp.quad, resolveQuad_sampleQuad]
    rfl
  rw [range_eq_range', range'_succ, map_cons, historySnapshot, historyLoop, hfirst]
  have hbytes : sampleQuad.bytes = 17 := by decide
  refine historyLoop_refresh (fun d hd => ?_) ?_ ?_
  · rw [mem_singleton] at hd
    rw [hd]
  · rw [hbytes, maxEnvelopeBytes]
    omega
  · rw [hbytes, maxEnvelopeBytes]
    omega

end Craqle
