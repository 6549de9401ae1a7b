import Craqle.Replication.Join
import Craqle.Replication.Repair

/-! # Repairing a graph from an authoritative snapshot

`reconcile_snapshot` compares a graph with an authoritative snapshot and, in apply mode, replaces
it. It holds no lock in between: it previews the repair, takes a backup, and replaces the graph,
and others can write at each of these points. The replacement is refused unless the graph is still
what the backup has.

A repair is all or nothing (`repair_all_or_nothing`). The snapshot of a graph after a repair has
the quads, dots and clock of the canonical authoritative snapshot. It lists them in its own order,
and `canonical_snapshot` brings only snapshots with aliases into that order.
-/

namespace Craqle

open Fallible List
open Std (ExtTreeMap ExtTreeSet)

/-! ## `preview_repair` -/

/-- What is asked: the digest that a healthy snapshot was announced with (a repair from history has
none), the snapshot, the mode, and the backup that the caller has. -/
structure RepairRequest where
  authority : Option Digest
  authoritative : GraphReplicaSnapshot
  mode : RepairMode
  backup : Option BackupProof

inductive RepairFailure where
  | inputRejected (error : SyncError)
  | digestMismatch
  | deletedGraph
  | panicked (panic : Panic)
  | store (error : StoreError)
  | diagnostics (error : StoreError)
  deriving DecidableEq

structure RepairDiff where
  unresolved : List Dot
  here : GraphReplicaSnapshot
  authoritative : GraphReplicaSnapshot
  deriving DecidableEq

structure RepairReport where
  audit : RepairAudit
  diff : Option RepairDiff
  deriving DecidableEq

section Reconcile

variable {Bytes : Type} (ox : Oxrdf) (archive : Archive Bytes)

def Archive.digest (snapshot : GraphReplicaSnapshot) : Digest :=
  archive.hash (archive.encode snapshot)

def previewRepair (s : GraphState) (request : RepairRequest) :
    Except RepairFailure RepairReport :=
  match checkSnapshot ox request.authoritative with
  | .error e => .error (.inputRejected e)
  | .ok () =>
    let graph := request.authoritative.graph
    match graphSnapshotBounded graph s with
    | .error e => .error (.store e)
    | .ok here =>
      let beforeDigest := archive.digest here
      if request.authority.any (· ≠ archive.digest request.authoritative) then
        .error .digestMismatch
      else
        match canonicalSnapshot ox request.authoritative with
        | .error p => .error (.panicked p)
        | .ok authoritative =>
          let result : RepairResult :=
            if s.tombstone.isSome then .tombstoned
            else if here = authoritative then .exact
            else if request.mode = .apply ∧
                request.backup.all (·.sourceRevision ≠ beforeDigest) = true then
              .backupRequired
            else .differs
          .ok {
            audit := ⟨graph, request.mode, beforeDigest, none, request.backup, result⟩
            diff := if here = authoritative then none else
              some ⟨missingDots authoritative.clock here.clock, here, authoritative⟩ }

/-! ## `reconcile_snapshot` -/

/-- Keep an exact copy of the graph under its digest. -/
def backupSnapshot (graph : GraphId) (s : GraphState) : Except StoreError (BackupProof × Bytes) :=
  (graphSnapshotBounded graph s).map fun snapshot =>
    (⟨backupLocation (archive.digest snapshot), archive.digest snapshot, archive.digest snapshot⟩,
      archive.encode snapshot)

/-- What a repair finds: the graph when it previews, when it takes the backup and when it commits,
the backups that are stored then, and whether the diagnostics can be updated afterwards. -/
structure RepairMoments (Bytes : Type) where
  preview : GraphState
  backup : GraphState
  commit : GraphState
  backups : ExtTreeMap Digest Bytes compare
  diagnostics : Except StoreError Unit

structure RepairOutcome where
  graph : GraphState
  result : Except RepairFailure RepairReport

def reconcileSnapshot (request : RepairRequest) (m : RepairMoments Bytes) : RepairOutcome :=
  match previewRepair ox archive m.preview request with
  | .error e => ⟨m.commit, .error e⟩
  | .ok report =>
    if request.mode = .apply ∧ report.audit.result = .tombstoned then
      ⟨m.commit, .error .deletedGraph⟩
    else if request.mode = .apply ∧
        (report.audit.result = .differs ∨ report.audit.result = .backupRequired) then
      match backupSnapshot archive report.audit.graph m.backup with
      | .error e => ⟨m.commit, .error (.store e)⟩
      | .ok (backup, _) =>
        match canonicalSnapshot ox request.authoritative with
        | .error p => ⟨m.commit, .error (.panicked p)⟩
        | .ok authoritative =>
          let audit := { report.audit with
            backup := some backup
            result := .applied
            afterDigest := some (archive.digest authoritative) }
          match replaceSnapshot archive m.backups m.commit authoritative audit with
          | .error e => ⟨m.commit, .error (.store e)⟩
          | .ok replaced =>
            match m.diagnostics with
            | .error e => ⟨replaced, .error (.diagnostics e)⟩
            | .ok () => ⟨replaced, .ok { report with audit := audit }⟩
    else ⟨m.commit, .ok report⟩

end Reconcile

/-! ## What a replacement writes -/

theorem mem_dots_foldl_write {rows : List SnapshotQuadState} (hnodup : (rows.map (·.quad)).Nodup)
    (t : QuadTable) (q : Triple) (d : Dot) :
    d ∈ (rows.foldl (fun t row => t.writeQuadState row.quad (ExtTreeSet.ofList row.dots compare))
      t).dots q ↔ d ∈ dotsAt rows q ∨ (q ∉ rows.map (·.quad) ∧ d ∈ t.dots q) := by
  induction rows generalizing t with
  | nil => simp [dotsAt]
  | cons row rows ih =>
    obtain ⟨hnot, hrest⟩ := nodup_cons.mp hnodup
    rw [foldl_cons, ih hrest, QuadTable.dots_writeQuadState]
    by_cases hq : row.quad = q
    · subst hq
      have hat : dotsAt (row :: rows) row.quad = row.dots := dotsAt_of_mem hnodup mem_cons_self
      rw [hat, dotsAt_of_not_mem hnot]
      simp [hnot]
    · have hat : dotsAt (row :: rows) q = dotsAt rows q := by
        simp [dotsAt, hq]
      rw [hat, if_neg hq]
      simp [Ne.symm hq]

variable {snapshot : GraphReplicaSnapshot}

theorem mem_dots_overwrite
    (hnodup : (snapshot.quads.map (·.quad)).Nodup) (s : GraphState) (q : Triple) (d : Dot) :
    d ∈ (s.overwrite snapshot).quads.dots q ↔ d ∈ dotsAt snapshot.quads q := by
  unfold GraphState.overwrite
  rw [mem_dots_foldl_write hnodup]
  simp

/-! ## Snapshots listed in order -/

/-- Rows in the order of their quads, dots in the order of their events, as a dump lists them. -/
structure GraphReplicaSnapshot.Listed (s : GraphReplicaSnapshot) : Prop where
  rows : s.quads.Pairwise fun a b => compare a.quad b.quad = .lt
  dots : ∀ row ∈ s.quads, row.dots.Pairwise fun a b => compare a b = .lt

theorem listed_snapshot (graph : GraphId) (s : GraphState) : (s.snapshot graph).Listed where
  rows := pairwise_map.mpr ExtTreeMap.ordered_keys_toList
  dots row hrow := by
    obtain ⟨entry, _, rfl⟩ := mem_map.mp hrow
    exact (ExtTreeSet.ordered_toList (t := entry.2))

variable {raw s : GraphReplicaSnapshot} {ox : Oxrdf}

theorem canonicalSnapshot_listed (hraw : raw.Listed)
    (h : canonicalSnapshot ox raw = .ok s) : s.Listed := by
  obtain rfl | ⟨groups, _, rfl⟩ := canonicalSnapshot_cases h
  · exact hraw
  · refine ⟨pairwise_map.mpr ExtTreeMap.ordered_keys_toList, fun row hrow => ?_⟩
    obtain ⟨group, _, rfl⟩ := mem_map.mp hrow
    exact (ExtTreeSet.ordered_toList (t := ExtTreeSet.ofList group.2 compare))

theorem GraphReplicaSnapshot.Installable.nonempty {graph : GraphId}
    (h : raw.Installable ox graph s) :
    ∀ row ∈ s.quads, row.dots ≠ [] := by
  obtain ⟨_, hcheck, hcanon⟩ := h
  obtain ⟨_, hrows⟩ := checkSnapshot_ok hcheck
  refine canonicalSnapshot_dots (P := (· ≠ [])) hcanon (fun row hrow => (hrows row hrow).nonempty)
    (fun ds ds' hds _ => ?_) fun ds ds' hsame hds => ?_
  · exact append_ne_nil_of_left_ne_nil hds ds'
  · obtain ⟨d, hd⟩ := exists_mem_of_ne_nil _ hds
    exact ne_nil_of_mem ((hsame d).mp hd)

theorem quads_eq_of_listed {a b : GraphReplicaSnapshot} (ha : a.Listed) (hb : b.Listed)
    (hafull : ∀ row ∈ a.quads, row.dots ≠ []) (hbfull : ∀ row ∈ b.quads, row.dots ≠ [])
    (hnodupA : (a.quads.map (·.quad)).Nodup) (hnodupB : (b.quads.map (·.quad)).Nodup)
    (hdots : ∀ q d, d ∈ dotsAt a.quads q ↔ d ∈ dotsAt b.quads q) : a.quads = b.quads := by
  -- the row of a quad on one side is the row of that quad on the other
  have hsub : ∀ {x y : GraphReplicaSnapshot}, x.Listed → y.Listed →
      (∀ row ∈ x.quads, row.dots ≠ []) →
      (x.quads.map (·.quad)).Nodup → (y.quads.map (·.quad)).Nodup →
      (∀ q d, d ∈ dotsAt x.quads q ↔ d ∈ dotsAt y.quads q) →
      ∀ row ∈ x.quads, row ∈ y.quads := by
    intro x y hx hy hfull hnodupX hnodupY hsame row hrow
    obtain ⟨d, hd⟩ := exists_mem_of_ne_nil _ (hfull row hrow)
    have hat : dotsAt x.quads row.quad = row.dots := dotsAt_of_mem hnodupX hrow
    have hthere : d ∈ dotsAt y.quads row.quad := (hsame row.quad d).mp (hat ▸ hd)
    obtain ⟨other, hother, hquad, _⟩ := (mem_dotsAt_iff hnodupY).mp hthere
    have hatOther : dotsAt y.quads row.quad = other.dots := hquad ▸ dotsAt_of_mem hnodupY hother
    have hdotsEq : row.dots = other.dots :=
      Ordered.eq_of_ordered id (hx.dots row hrow) (hy.dots other hother) fun d => by
        rw [← hat, ← hatOther]
        exact hsame row.quad d
    have hrowEq : row = other := by
      cases row
      cases other
      simp_all
    exact hrowEq ▸ hother
  exact Ordered.eq_of_ordered (·.quad) ha.rows hb.rows fun row =>
    ⟨hsub ha hb hafull hnodupA hnodupB hdots row,
      hsub hb ha hbfull hnodupB hnodupA (fun q d => (hdots q d).symm) row⟩

/-! ## What a repair does -/

/-- The graph was replaced: the repair says so, or it failed only on the diagnostics afterwards. -/
def RepairOutcome.applied (o : RepairOutcome) : Bool :=
  match o.result with
  | .ok report => report.audit.result = .applied
  | .error (.diagnostics _) => true
  | .error _ => false

section Cases

variable {Bytes : Type} {ox : Oxrdf} {archive : Archive Bytes}

/-- A preview passes the ingress check, and never says that something was applied; it does not fail
with diagnostics. -/
theorem previewRepair_spec (s : GraphState) (request : RepairRequest) :
    match previewRepair ox archive s request with
    | .ok report => checkSnapshot ox request.authoritative = .ok () ∧
        report.audit.graph = request.authoritative.graph ∧ report.audit.result ≠ .applied
    | .error e => ∀ error, e ≠ .diagnostics error := by
  generalize hout : previewRepair ox archive s request = out
  unfold previewRepair at hout
  split at hout
  · subst hout
    simp
  rename_i hcheck
  simp only at hout
  split at hout
  · subst hout
    simp
  split at hout
  · subst hout
    simp
  split at hout
  · subst hout
    simp
  · subst hout
    refine ⟨hcheck, rfl, ?_⟩
    dsimp only
    split_ifs <;> simp

/-- **What a repair can do**: leave the graph alone, or replace it under a backup of the moment
before. -/
theorem reconcileSnapshot_cases (request : RepairRequest) (m : RepairMoments Bytes) :
    let out := reconcileSnapshot ox archive request m
    let graph := request.authoritative.graph
    (out.applied = false ∧ out.graph = m.commit) ∨
      (out.applied = true ∧ request.mode = .apply ∧ ∃ authoritative audit backup,
        request.authoritative.Installable ox graph authoritative ∧
        audit.backup = some backup ∧
        backup.archiveDigest = archive.digest (m.backup.snapshot graph) ∧
        replaceSnapshot archive m.backups m.commit authoritative audit = .ok out.graph) := by
  intro out graph
  have hout : reconcileSnapshot ox archive request m = out := rfl
  clear_value out
  unfold reconcileSnapshot at hout
  have hspec := @previewRepair_spec _ ox archive m.preview request
  split at hout
  · rename_i e hpreview
    left
    rw [hpreview] at hspec
    subst hout
    refine ⟨?_, rfl⟩
    cases e <;> simp_all [RepairOutcome.applied]
  · rename_i report hpreview
    rw [hpreview] at hspec
    obtain ⟨hcheck, hgraph, hresult⟩ := hspec
    split at hout
    · subst hout
      exact Or.inl ⟨rfl, rfl⟩
    split at hout
    · rename_i happly
      split at hout
      · subst hout
        exact Or.inl ⟨rfl, rfl⟩
      rename_i backup bytes hbackup
      obtain ⟨snapshot, hsnapshot, hproof⟩ := map_eq_ok.mp hbackup
      obtain ⟨_, _, rfl⟩ := map_eq_ok.mp hsnapshot
      split at hout
      · subst hout
        exact Or.inl ⟨rfl, rfl⟩
      rename_i authoritative hcanonical
      simp only at hout
      split at hout
      · subst hout
        exact Or.inl ⟨rfl, rfl⟩
      rename_i replaced hreplaced
      have hdigest : backup.archiveDigest = archive.digest (m.backup.snapshot graph) := by
        have hfst := congrArg (·.1.archiveDigest) hproof
        rw [hgraph] at hfst
        exact hfst.symm
      right
      split at hout
      · subst hout
        exact ⟨rfl, happly.1, authoritative, _, backup, ⟨rfl, hcheck, hcanonical⟩, rfl,
          hdigest, hreplaced⟩
      · subst hout
        exact ⟨rfl, happly.1, authoritative, _, backup, ⟨rfl, hcheck, hcanonical⟩, rfl,
          hdigest, hreplaced⟩
    · subst hout
      exact Or.inl ⟨by simpa [RepairOutcome.applied] using hresult, rfl⟩

end Cases

theorem snapshot_overwrite {s : GraphState} (hlisted : snapshot.Listed)
    (hfull : ∀ row ∈ snapshot.quads, row.dots ≠ []) (hnodup : (snapshot.quads.map (·.quad)).Nodup) :
    (s.overwrite snapshot).snapshot snapshot.graph = snapshot := by
  have hsame : ∀ q d, d ∈ dotsAt ((s.overwrite snapshot).snapshot snapshot.graph).quads q ↔
      d ∈ dotsAt snapshot.quads q := by
    intro q d
    rw [mem_dotsAt_snapshot, mem_dots_overwrite hnodup]
  have hdumpFull : ∀ row ∈ ((s.overwrite snapshot).snapshot snapshot.graph).quads,
      row.dots ≠ [] := by
    intro row hrow hempty
    obtain ⟨entry, hentry, rfl⟩ := mem_map.mp hrow
    have hlive := (s.overwrite snapshot).quads.live _ _
      (ExtTreeMap.mem_toList_iff_getElem?_eq_some.mp hentry)
    obtain ⟨d, hd⟩ := (Ordered.ne_empty_iff _).mp hlive
    have hmem : d ∈ entry.2.toList := ExtTreeSet.mem_toList.mpr hd
    exact ne_nil_of_mem hmem hempty
  have hquads := quads_eq_of_listed (listed_snapshot snapshot.graph (s.overwrite snapshot))
    hlisted hdumpFull hfull (nodup_snapshot _ _) hnodup hsame
  have hclock : ((s.overwrite snapshot).snapshot snapshot.graph).clock = snapshot.clock := rfl
  cases snapshot
  exact congrArg₂ (GraphReplicaSnapshot.mk _) hclock hquads

/-- **A repair is all or nothing.** A repair that is applied was asked for in apply mode, and found
the graph as its backup has it. Afterwards the graph has the clock and the dots of the canonical
authoritative snapshot, and its dump is that snapshot if the authoritative one is listed in order.
Every other repair leaves the graph as it was. -/
theorem repair_all_or_nothing {Bytes : Type} (ox : Oxrdf) (archive : Archive Bytes)
    (request : RepairRequest) (m : RepairMoments Bytes)
    (hkept : ∀ stored,
      m.backups[archive.digest (m.backup.snapshot request.authoritative.graph)]? = some stored →
      archive.decode stored = some (m.backup.snapshot request.authoritative.graph)) :
    let out := reconcileSnapshot ox archive request m
    let graph := request.authoritative.graph
    (out.applied = false → out.graph = m.commit) ∧
      (out.applied = true → request.mode = .apply ∧
        m.commit.snapshot graph = m.backup.snapshot graph ∧
        ∃ authoritative, canonicalSnapshot ox request.authoritative = .ok authoritative ∧
          out.graph.clock = authoritative.clock ∧
          (∀ q d, d ∈ out.graph.quads.dots q ↔ d ∈ dotsAt authoritative.quads q) ∧
          (request.authoritative.Listed → out.graph.snapshot graph = authoritative)) := by
  intro out graph
  rcases @reconcileSnapshot_cases Bytes ox archive request m with
    ⟨hunapplied, hgraph⟩ | ⟨happlied, hmode, authoritative, audit, backup, hinstall, hbackup,
      hdigest, hreplace⟩
  · refine ⟨fun _ => hgraph, fun happlied => ?_⟩
    rw [hunapplied] at happlied
    cases happlied
  refine ⟨fun hunapplied => ?_, fun _ => ⟨hmode, ?_, authoritative, hinstall.2.2, ?_⟩⟩
  · rw [happlied] at hunapplied
    cases hunapplied
  · -- the stored backup decodes to the graph that is replaced, and to what was backed up
    obtain ⟨_, _, proof, stored, hproof, hstored, hdecode⟩ := replaceSnapshot_eq_ok archive hreplace
    cases hbackup.symm.trans hproof
    have hkeep := hkept stored (hdigest ▸ hstored)
    rw [(canonicalSnapshot_frame hinstall.2.2).1] at hdecode
    exact Option.some.inj (hdecode.symm.trans hkeep)
  · have hreplaced : out.graph = m.commit.overwrite authoritative :=
      (replaceSnapshot_eq_ok archive hreplace).2.1
    have hnodup := hinstall.sound.1.nodup
    rw [hreplaced]
    refine ⟨rfl, mem_dots_overwrite hnodup m.commit, fun hlisted => ?_⟩
    have hdump := snapshot_overwrite (canonicalSnapshot_listed hlisted hinstall.2.2)
      hinstall.nonempty hnodup (s := m.commit)
    rw [(canonicalSnapshot_frame hinstall.2.2).1] at hdump
    exact hdump

/-- Snapshots that are stored as they are, under a digest that tells an empty one from others. -/
def plainArchive : Archive GraphReplicaSnapshot where
  encode := id
  decode := some
  hash snapshot := if snapshot.quads = [] then 0 else 1

/-- A repair of a graph the store has never heard of; the backup that it takes is stored when it
commits. -/
def unknownMoments (diagnostics : Except StoreError Unit) : RepairMoments GraphReplicaSnapshot where
  preview := GraphState.unknown
  backup := GraphState.unknown
  commit := GraphState.unknown
  backups := (∅ : ExtTreeMap Digest GraphReplicaSnapshot compare).insert 0
    (GraphState.unknown.snapshot sampleGraph)
  diagnostics := diagnostics

set_option maxRecDepth 4000 in
theorem repair_all_or_nothing_held :
    let out := reconcileSnapshot ntriplesOxrdf plainArchive ⟨none, heldSnapshot, .apply, none⟩
      (unknownMoments (.ok ()))
    out.applied = true ∧ out.graph.snapshot sampleGraph = heldSnapshot := by
  have happlied : (reconcileSnapshot ntriplesOxrdf plainArchive
      ⟨none, heldSnapshot, .apply, none⟩ (unknownMoments (.ok ()))).applied = true := by
    decide +kernel
  have hrepair := repair_all_or_nothing ntriplesOxrdf plainArchive
    ⟨none, heldSnapshot, .apply, none⟩ (unknownMoments (.ok ())) (by decide +kernel)
  obtain ⟨_, _, authoritative, hcanonical, _, _, hdump⟩ := hrepair.2 happlied
  have hheld : canonicalSnapshot ntriplesOxrdf heldSnapshot = .ok heldSnapshot := by decide
  have hlisted : heldSnapshot.Listed := ⟨by decide, by decide⟩
  refine ⟨happlied, (hdump hlisted).trans ?_⟩
  exact Except.ok.inj (hcanonical.symm.trans hheld)

/-- A snapshot without aliases that lists its rows against the order of their quads. -/
def swappedSnapshot : GraphReplicaSnapshot :=
  ⟨sampleGraph, (VectorClock.new.advance 1 1).advance 1 2,
    [⟨{ sampleQuad with object := ⟨"\"w\"".toList⟩ }, [⟨1, 2⟩]⟩, ⟨sampleQuad, [⟨1, 1⟩]⟩]⟩

/-- The canonical form of the swapped snapshot is itself, and the graph's dump after the repair is
another list of its rows. A failure of the diagnostics is reported although the graph was
replaced. -/
theorem applied_repair_reorders :
    (∃ authoritative, canonicalSnapshot ntriplesOxrdf swappedSnapshot = .ok authoritative ∧
      let out := reconcileSnapshot ntriplesOxrdf plainArchive ⟨none, swappedSnapshot, .apply, none⟩
        (unknownMoments (.ok ()))
      (out.result.toOption.map (·.audit.result) = some .applied) ∧
        out.graph.snapshot sampleGraph ≠ authoritative) ∧
      let failed := reconcileSnapshot ntriplesOxrdf plainArchive
        ⟨none, heldSnapshot, .apply, none⟩ (unknownMoments (.error .postcard))
      failed.result = .error (.diagnostics .postcard) ∧ failed.graph ≠ GraphState.unknown := by
  refine ⟨⟨swappedSnapshot, by decide +kernel, ?_⟩, ?_⟩
  · decide +kernel
  · decide +kernel

end Craqle
