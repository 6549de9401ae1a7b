import Craqle.Replication.Snapshot

/-! # Replacing a graph by an authoritative snapshot

`replace_snapshot` overwrites a live graph with the state a repair was authorized for. It
checks the audit record against digests of the state before and after and against the stored
backup of the state before. Then it kills every row, writes the snapshot's rows and sets its
clock. The log heads of local actors are not touched.

Serialization (postcard) and hashing (blake3) are the parameter `Archive`.
-/

namespace Craqle

open Std (ExtTreeMap ExtTreeSet)

abbrev Digest := BitVec 256

structure Archive (Bytes : Type) where
  encode : GraphReplicaSnapshot → Bytes
  decode : Bytes → Option GraphReplicaSnapshot
  hash : Bytes → Digest

inductive StoreError where
  | limitExceeded (resource : String) (limit actual : Nat)
  | receiptConflict
  | graphNotFound (graph : GraphId)
  | postcard
  deriving DecidableEq

inductive RepairMode where
  | dryRun
  | apply
  deriving DecidableEq

inductive RepairResult where
  | exact
  | differs
  | applied
  | tombstoned
  | historyMissing
  | backupRequired
  | changedDuringRepair
  deriving DecidableEq

structure BackupProof where
  location : Text
  archiveDigest : Digest
  sourceRevision : Digest
  deriving DecidableEq

/-- The fields of an audit record that a replacement checks. -/
structure RepairAudit where
  graph : GraphId
  mode : RepairMode
  beforeDigest : Digest
  afterDigest : Option Digest
  backup : Option BackupProof
  result : RepairResult
  deriving DecidableEq

/-- `craqle:backup:` and the digest's bytes in hexadecimal. -/
def backupLocation (digest : Digest) : Text := "craqle:backup:".toList ++ hexText digest

/-! ## Bounded dumps -/

def maxSnapshotRows : Nat := 1048576

def maxSnapshotBytes : Nat := 64 * 1048576

/-- The stored bytes of a row: its terms, and a tag with forty bytes a dot. -/
def rowBytes (row : Triple × DotSet) : Nat :=
  (row.1.terms.map fun t => byteLen t.text).sum + (1 + row.2.size * 40)

/-- Count one more row against the limits. -/
def boundRow (acc : Nat × Nat) (row : Triple × DotSet) : Except StoreError (Nat × Nat) :=
  if acc.1 + 1 > maxSnapshotRows then
    .error (.limitExceeded "graph snapshot rows" maxSnapshotRows (acc.1 + 1))
  else if acc.2 + rowBytes row > maxSnapshotBytes then
    .error (.limitExceeded "graph snapshot bytes" maxSnapshotBytes (acc.2 + rowBytes row))
  else .ok (acc.1 + 1, acc.2 + rowBytes row)

/-- A dump of the graph, unless it is too large. -/
def graphSnapshotBounded (graph : GraphId) (s : GraphState) :
    Except StoreError GraphReplicaSnapshot :=
  (s.quads.rows.toList.foldlM boundRow (0, 0)).map fun _ => s.snapshot graph

/-! ## Replacement -/

section Replace

variable {Bytes : Type} (archive : Archive Bytes)

def RepairAudit.allows (audit : RepairAudit) (before snapshot : GraphReplicaSnapshot)
    (backup : BackupProof) (stored : Bytes) (backupSnapshot : GraphReplicaSnapshot) : Bool :=
  let beforeDigest := archive.hash (archive.encode before)
  let afterDigest := archive.hash (archive.encode snapshot)
  audit.graph = snapshot.graph && audit.mode = .apply && audit.result = .applied &&
    audit.beforeDigest = beforeDigest && audit.afterDigest = some afterDigest &&
    backup.sourceRevision = beforeDigest && backup.archiveDigest = archive.hash stored &&
    backupSnapshot = before && backup.location = backupLocation backup.archiveDigest

def GraphState.overwrite (s : GraphState) (snapshot : GraphReplicaSnapshot) : GraphState :=
  { s with
    present := true
    quads := snapshot.quads.foldl
      (fun t row => t.writeQuadState row.quad (ExtTreeSet.ofList row.dots compare)) QuadTable.empty
    clock := snapshot.clock }

/-- Replace one live graph from authorized healthy state after exact backup. -/
def replaceSnapshot (backups : ExtTreeMap Digest Bytes compare) (s : GraphState)
    (snapshot : GraphReplicaSnapshot) (audit : RepairAudit) : Except StoreError GraphState :=
  if s.tombstone.isSome then .error .receiptConflict
  else
    match graphSnapshotBounded snapshot.graph s with
    | .error e => .error e
    | .ok before =>
      match audit.backup with
      | none => .error .receiptConflict
      | some backup =>
        match backups[backup.archiveDigest]? with
        | none => .error .receiptConflict
        | some stored =>
          match archive.decode stored with
          | none => .error .postcard
          | some backupSnapshot =>
            if audit.allows archive before snapshot backup stored backupSnapshot = false then
              .error .receiptConflict
            -- a graph without a record is created, if nothing is stored under it
            else if s.present = false ∧
                ¬ (before.quads = [] ∧ before.clock = VectorClock.new) then
              .error (.graphNotFound snapshot.graph)
            else .ok (s.overwrite snapshot)

theorem replaceSnapshot_eq_ok {backups : ExtTreeMap Digest Bytes compare} {s s' : GraphState}
    {snapshot : GraphReplicaSnapshot} {audit : RepairAudit}
    (h : replaceSnapshot archive backups s snapshot audit = .ok s') :
    s.tombstone = none ∧ s' = s.overwrite snapshot ∧ ∃ backup stored,
      audit.backup = some backup ∧ backups[backup.archiveDigest]? = some stored ∧
      archive.decode stored = some (s.snapshot snapshot.graph) := by
  unfold replaceSnapshot at h
  split at h
  · cases h
  rename_i ht
  split at h
  · cases h
  rename_i before hbefore
  obtain ⟨_, _, rfl⟩ := Fallible.map_eq_ok.mp hbefore
  split at h
  · cases h
  rename_i backup hbackup
  split at h
  · cases h
  rename_i stored hstored
  split at h
  · cases h
  rename_i backupSnapshot hdecode
  split at h
  · cases h
  rename_i hallows
  simp only [RepairAudit.allows, Bool.not_eq_false, Bool.and_eq_true, decide_eq_true_eq] at hallows
  obtain ⟨⟨_, hsame⟩, _⟩ := hallows
  split at h
  · cases h
  refine ⟨by simpa using ht, (Except.ok.inj h).symm, backup, stored, hbackup, hstored, ?_⟩
  exact hsame ▸ hdecode

end Replace

end Craqle
