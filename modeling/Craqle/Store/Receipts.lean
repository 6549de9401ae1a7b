import Craqle.Core.Batch

/-! # Mutation receipts

A store keeps a receipt of every admitted mutation, under the mutation's identifier, and a second
keyspace that orders the receipts by the time of their last change. A commit that writes receipts
removes the oldest ones past the retention limit, and a watermark keeps the highest admission
sequence removed so far: a ticket that is gone is *expired* up to the watermark and *unknown*
past it. The number of receipts and the place where the scan for the oldest one starts are kept
in memory.

The mappings from batches to receipts, which have a count and a floor of their own, the
persistence and repair outcomes of a receipt, and the wrapping of the sequence counter are not
modelled.
-/

namespace Craqle

open List Ordered
open Std (ExtTreeMap ExtTreeSet TransCmp TransOrd LawfulEqOrd)

/-- Stable identity used to inspect or retry one logical mutation. -/
abbrev MutationId := BitVec 256

inductive SourceOutcome where
  | prepared
  | applied
  | duplicate
  deriving DecidableEq

/-- Durable state of a mutation after its source commit point. -/
structure MutationReceipt where
  id : MutationId
  admissionSequence : Nat
  graph : GraphId
  requestDigest : BitVec 256
  eventId : Option OpId
  topic : Option TopicId
  publishAfter : Option VectorClock
  topicEpoch : Option Nat
  topicGenesis : Option OpId
  searchToken : Option Nat
  repairGraphs : List GraphId
  source : SourceOutcome
  sourceVersion : BitVec 256
  updatedUnixNanos : BitVec 64
  deriving DecidableEq

/-- The fields that a rewrite of a receipt must keep. -/
def MutationReceipt.sameRequest (a b : MutationReceipt) : Bool :=
  a.graph = b.graph && a.requestDigest = b.requestDigest && a.eventId = b.eventId &&
    a.topic = b.topic && a.topicEpoch = b.topicEpoch && a.topicGenesis = b.topicGenesis &&
    a.publishAfter = b.publishAfter && a.repairGraphs = b.repairGraphs

/-- The key of a receipt's order row: its time, with the sign bit flipped so that bytes sort as
signed numbers do, then its identifier. -/
structure ReceiptOrderKey where
  orderedTime : BitVec 64
  id : MutationId
  deriving DecidableEq

instance : Ord ReceiptOrderKey where
  compare := compareLex (compareOn ReceiptOrderKey.orderedTime) (compareOn ReceiptOrderKey.id)

instance instTransOrdReceiptOrderKey : TransOrd ReceiptOrderKey :=
  inferInstanceAs (TransCmp
    (compareLex (compareOn ReceiptOrderKey.orderedTime) (compareOn ReceiptOrderKey.id)))

instance instLawfulEqOrdReceiptOrderKey : LawfulEqOrd ReceiptOrderKey where
  eq_of_compare {a b} h := by
    change (compare a.orderedTime b.orderedTime).then (compare a.id b.id) = .eq at h
    rw [Ordering.then_eq_eq, Std.compare_eq_iff_eq, Std.compare_eq_iff_eq] at h
    cases a
    cases b
    simp_all

def receiptOrderKey (receipt : MutationReceipt) : ReceiptOrderKey :=
  ⟨receipt.updatedUnixNanos ^^^ (1#64 <<< 63), receipt.id⟩

/-- The durable rows: receipts, their order, and the watermark of expired sequences. -/
structure ReceiptDb where
  receipts : ExtTreeMap MutationId MutationReceipt
  order : ExtTreeSet ReceiptOrderKey
  expired : Nat

/-- Committed receipt count and trim floor. -/
structure RetentionState where
  receipts : Nat
  receiptFloor : Option ReceiptOrderKey

/-- How many receipts are kept, and how many one commit may remove. -/
structure RetentionLimits where
  receiptRetention : Nat
  buildRows : Nat

def RetentionLimits.store : RetentionLimits := ⟨4096, 1024⟩

/-! ## Staging and status -/

structure StagedReceipt where
  stored : MutationReceipt
  previous : Option MutationReceipt
  deriving DecidableEq

/-- What staging the first evidence of a mutation leads to. -/
inductive StageOutcome where
  | conflict
  | existing (receipt : MutationReceipt)
  | staged (entry : StagedReceipt) (receiptNext : Nat)

namespace ReceiptDb

def mutationReceipt (db : ReceiptDb) (id : MutationId) : Option MutationReceipt :=
  db.receipts[id]?

/-- Stage first acceptance evidence. A receipt without a sequence gets the next one. -/
def stageReceipt (db : ReceiptDb) (receiptNext : Nat) (receipt : MutationReceipt) : StageOutcome :=
  match db.mutationReceipt receipt.id with
  | some existing => if existing.sameRequest receipt then .existing existing else .conflict
  | none =>
    if receipt.admissionSequence = 0 then
      .staged ⟨{ receipt with admissionSequence := receiptNext }, none⟩ (receiptNext + 1)
    else .staged ⟨receipt, none⟩ receiptNext

/-- The given receipt, with the stored sequence where it has none. -/
def withSequence (receipt previous : MutationReceipt) : MutationReceipt :=
  if receipt.admissionSequence = 0 then
    { receipt with admissionSequence := previous.admissionSequence }
  else receipt

def stageReceiptUpdate (db : ReceiptDb) (receipt : MutationReceipt) : Option StagedReceipt :=
  match db.mutationReceipt receipt.id with
  | none => none
  | some previous =>
    let stored := withSequence receipt previous
    if previous.sameRequest receipt && previous.source = .prepared &&
        stored.admissionSequence = previous.admissionSequence then
      some ⟨stored, some previous⟩
    else none

/-- Bind a prepared receipt to its event. The order row does not depend on it. -/
def bindReceiptEvent (db : ReceiptDb) (id : MutationId) (event : OpId) :
    Option (MutationReceipt × ReceiptDb) :=
  match db.mutationReceipt id with
  | none => none
  | some receipt =>
    if receipt.source = .prepared && receipt.eventId.all (· = event) then
      let bound := { receipt with eventId := some event }
      some (bound, { db with receipts := db.receipts.insert bound.id bound })
    else none

/-- Write a staged receipt and its order row, in place of the row of the receipt before it. -/
def write (db : ReceiptDb) (entry : StagedReceipt) : ReceiptDb :=
  let order := match entry.previous with
    | some previous =>
      if receiptOrderKey previous = receiptOrderKey entry.stored then db.order
      else db.order.erase (receiptOrderKey previous)
    | none => db.order
  { db with
    receipts := db.receipts.insert entry.stored.id entry.stored
    order := order.insert (receiptOrderKey entry.stored) }

/-- Remove an order row and the receipt it names. -/
def remove (db : ReceiptDb) (key : ReceiptOrderKey) : ReceiptDb :=
  { db with receipts := db.receipts.erase key.id, order := db.order.erase key }

end ReceiptDb

/-- A floor moves down to a key below it. Without one the scan starts at the first row. -/
def lowerFloor (floor : Option ReceiptOrderKey) (key : ReceiptOrderKey) : Option ReceiptOrderKey :=
  floor.map fun current => if compare key current = .lt then key else current

/-- Compare-fenced rewrite for post-commit persistence and repair settlement. -/
def updateReceipt (db : ReceiptDb) (retention : RetentionState) (receipt : MutationReceipt) :
    Option (MutationReceipt × ReceiptDb × RetentionState) :=
  match db.mutationReceipt receipt.id with
  | none => none
  | some previous =>
    let stored := ReceiptDb.withSequence receipt previous
    if previous.sameRequest receipt && previous.sourceVersion = receipt.sourceVersion &&
        previous.admissionSequence = stored.admissionSequence then
      some (stored, db.write ⟨stored, some previous⟩,
        { retention with
          receiptFloor := lowerFloor retention.receiptFloor (receiptOrderKey stored) })
    else none

/-- What a client asks for: a mutation of a graph, with the sequence of its ticket. -/
structure MutationLookup where
  graph : GraphId
  id : MutationId
  admissionSequence : Option Nat

inductive MutationStatus where
  | known (receipt : MutationReceipt)
  | expired
  | unknown
  deriving DecidableEq

def ReceiptDb.receiptStatus (db : ReceiptDb) (lookup : MutationLookup) : MutationStatus :=
  match db.mutationReceipt lookup.id with
  | some receipt =>
    if receipt.graph = lookup.graph && lookup.admissionSequence.all (· = receipt.admissionSequence)
    then .known receipt
    else .unknown
  | none =>
    match lookup.admissionSequence with
    | some sequence => if sequence ≤ db.expired then .expired else .unknown
    | none => .unknown

/-! ## Trimming -/

def firstReceipts : List MutationId → List MutationReceipt → List MutationReceipt
  | _, [] => []
  | seen, receipt :: receipts =>
    if receipt.id ∈ seen then firstReceipts seen receipts
    else receipt :: firstReceipts (receipt.id :: seen) receipts

def lowerKey (lowest : Option ReceiptOrderKey) (key : ReceiptOrderKey) : Option ReceiptOrderKey :=
  match lowest with
  | some current => some (if compare key current = .lt then key else current)
  | none => some key

def lowestKey (receipts : List MutationReceipt) : Option ReceiptOrderKey :=
  receipts.foldl (fun lowest receipt => lowerKey lowest (receiptOrderKey receipt)) none

/-- The scan of a trim: rows removed, the floor, whether it may still advance, and the highest
sequence removed. -/
structure TrimScan where
  removed : List ReceiptOrderKey
  next : Option ReceiptOrderKey
  advance : Bool
  expired : Option Nat

/-- Remove rows until enough are gone. Rows of receipts that this batch writes stay, and the floor
does not pass them. -/
def scanTrim (db : ReceiptDb) (staged : List MutationId) :
    Nat → List ReceiptOrderKey → TrimScan → TrimScan
  | 0, _, scan => scan
  | _ + 1, [], scan => scan
  | excess + 1, key :: rows, scan =>
    if key.id ∈ staged then scanTrim db staged (excess + 1) rows { scan with advance := false }
    else
      scanTrim db staged excess rows
        { removed := scan.removed ++ [key]
          next := if scan.advance then some key else scan.next
          advance := scan.advance
          expired := match db.mutationReceipt key.id with
            | some receipt => some (max (scan.expired.getD 0) receipt.admissionSequence)
            | none => scan.expired }

/-- What a trim decides. -/
structure Trim where
  state : RetentionState
  removed : List ReceiptOrderKey
  expired : Nat

/-- Choose the oldest committed receipts past retention. Receipts this batch writes count once and
are never removed by it. -/
def trimReceiptOrder (limits : RetentionLimits) (db : ReceiptDb) (state : RetentionState)
    (pending : List MutationReceipt) : Trim :=
  let first := firstReceipts [] pending
  let live := state.receipts + first.countP fun receipt => (db.mutationReceipt receipt.id).isNone
  let floor := first.foldl (fun floor receipt => lowerFloor floor (receiptOrderKey receipt))
    state.receiptFloor
  let excess := min (live - limits.receiptRetention) limits.buildRows
  if excess = 0 then ⟨⟨live, floor⟩, [], db.expired⟩
  else
    let rows := db.order.toList.filter fun key =>
      floor.all fun start => (compare start key).isLE
    let scan := scanTrim db (first.map MutationReceipt.id) excess rows ⟨[], floor, true, none⟩
    let next := match lowestKey first with
      | some lowest => lowerFloor scan.next lowest
      | none => scan.next
    ⟨⟨live - scan.removed.length, next⟩, scan.removed, max db.expired (scan.expired.getD 0)⟩

/-- A batch's receipts name the search token of its commit, if it has one. -/
def withSearchToken (token : Option Nat) (entry : StagedReceipt) : StagedReceipt :=
  match token with
  | some token => { entry with stored := { entry.stored with searchToken := some token } }
  | none => entry

/-- Write a batch's receipts and trim the others. -/
def commitEntries (limits : RetentionLimits) (db : ReceiptDb) (retention : RetentionState)
    (entries : List StagedReceipt) : ReceiptDb × RetentionState :=
  let trim := trimReceiptOrder limits db retention (entries.map StagedReceipt.stored)
  let written := entries.foldl ReceiptDb.write db
  ({ trim.removed.foldl ReceiptDb.remove written with expired := trim.expired }, trim.state)

/-- The receipts' part of a commit that the database takes. -/
def commitReceipts (limits : RetentionLimits) (db : ReceiptDb) (retention : RetentionState)
    (pending : List StagedReceipt) (token : Option Nat) : ReceiptDb × RetentionState :=
  if pending = [] then (db, retention)
  else commitEntries limits db retention (pending.map (withSearchToken token))

/-- Opening a store: the sequence counter, the count and the floor are taken from its rows, and
receipts without an order row get one. -/
def restoreReceiptNext (db : ReceiptDb) : ReceiptDb × RetentionState × Nat :=
  let stored := db.receipts.toList.map Prod.snd
  let highest := stored.foldl (fun highest receipt => max highest receipt.admissionSequence)
    db.expired
  let order := stored.foldl (fun order receipt => order.insert (receiptOrderKey receipt)) db.order
  ({ db with order := order }, ⟨stored.length, none⟩, highest + 1)

/-! ## Rows and receipts -/

namespace ReceiptDb

/-- Every receipt stands under its identifier, and order rows and receipts correspond. -/
structure Paired (db : ReceiptDb) : Prop where
  keyed : ∀ (id : MutationId) (r : MutationReceipt), db.receipts[id]? = some r → r.id = id
  rows : ∀ key : ReceiptOrderKey, key ∈ db.order ↔
    ∃ r : MutationReceipt, db.receipts[key.id]? = some r ∧ receiptOrderKey r = key

variable {db : ReceiptDb} {entry : StagedReceipt} {key : ReceiptOrderKey}

theorem receipts_write (db : ReceiptDb) (entry : StagedReceipt) (id : MutationId) :
    (db.write entry).receipts[id]? =
      if entry.stored.id = id then some entry.stored else db.receipts[id]? :=
  getElem?_insert _ _ _ _

theorem mem_order_write (db : ReceiptDb) (entry : StagedReceipt) (key : ReceiptOrderKey) :
    key ∈ (db.write entry).order ↔ key = receiptOrderKey entry.stored ∨
      (key ∈ db.order ∧ ∀ previous ∈ entry.previous, key ≠ receiptOrderKey previous) := by
  unfold write
  rw [mem_insert]
  refine or_congr_right' fun hne => ?_
  cases hprevious : entry.previous with
  | none => simp
  | some previous =>
    by_cases hsame : receiptOrderKey previous = receiptOrderKey entry.stored
    · simp only [if_pos hsame]
      simp [hsame, hne]
    · simp only [if_neg hsame]
      rw [mem_erase, and_comm]
      simp

theorem receipts_remove (db : ReceiptDb) (key : ReceiptOrderKey) (id : MutationId) :
    (db.remove key).receipts[id]? = if key.id = id then none else db.receipts[id]? :=
  getElem?_erase _ _ _

theorem mem_order_remove (db : ReceiptDb) (key key' : ReceiptOrderKey) :
    key' ∈ (db.remove key).order ↔ key' ≠ key ∧ key' ∈ db.order :=
  mem_erase _ _ _

structure Fits (db : ReceiptDb) (entry : StagedReceipt) : Prop where
  replaces : ∀ r : MutationReceipt, db.receipts[entry.stored.id]? = some r →
    entry.previous = some r
  keyed : ∀ previous ∈ entry.previous, previous.id = entry.stored.id

theorem Paired.write (h : db.Paired) (hfits : db.Fits entry) : (db.write entry).Paired where
  keyed id r hr := by
    rw [receipts_write] at hr
    split at hr
    · rename_i hid
      cases hr
      exact hid
    · exact h.keyed id r hr
  rows key := by
    rw [mem_order_write, receipts_write]
    by_cases hid : entry.stored.id = key.id
    · rw [if_pos hid]
      constructor
      · rintro (rfl | ⟨hmem, hne⟩)
        · exact ⟨_, rfl, rfl⟩
        · -- the row of the receipt stored before is the one that goes
          obtain ⟨r, hr, hkey⟩ := (h.rows key).mp hmem
          rw [← hid] at hr
          exact absurd hkey.symm (hne r (hfits.replaces r hr))
      · rintro ⟨r, hr, rfl⟩
        cases hr
        exact .inl rfl
    · rw [if_neg hid, ← h.rows key]
      constructor
      · rintro (rfl | ⟨hmem, _⟩)
        · exact absurd rfl hid
        · exact hmem
      · refine fun hmem => .inr ⟨hmem, fun previous hprevious heq => hid ?_⟩
        rw [heq]
        exact (hfits.keyed previous hprevious).symm

theorem Paired.remove (h : db.Paired) (hkey : key ∈ db.order) : (db.remove key).Paired where
  keyed id r hr := by
    rw [receipts_remove] at hr
    split at hr
    · cases hr
    · exact h.keyed id r hr
  rows key' := by
    rw [mem_order_remove, receipts_remove, h.rows key']
    by_cases hid : key.id = key'.id
    · rw [if_pos hid]
      refine iff_of_false ?_ (by simp)
      rintro ⟨hne, r, hr, hrow⟩
      obtain ⟨r', hr', hrow'⟩ := (h.rows key).mp hkey
      rw [← hid, hr'] at hr
      cases hr
      exact hne (hrow.symm.trans hrow')
    · rw [if_neg hid]
      exact and_iff_right fun heq => hid (congrArg ReceiptOrderKey.id heq).symm

theorem Paired.size_eq (h : db.Paired) : db.order.size = db.receipts.size := by
  have hperm : (db.order.toList.map ReceiptOrderKey.id).Perm db.receipts.keys := by
    refine (perm_ext_iff_of_nodup ?_ ExtTreeMap.nodup_keys).mpr fun id => ?_
    · refine (nodup_map_iff_inj_on (nodup_toList _)).mpr fun a ha b hb hid => ?_
      obtain ⟨r, hr, rfl⟩ := (h.rows a).mp (ExtTreeSet.mem_toList.mp ha)
      obtain ⟨r', hr', rfl⟩ := (h.rows b).mp (ExtTreeSet.mem_toList.mp hb)
      rw [hid, hr'] at hr
      exact congrArg receiptOrderKey (Option.some.inj hr).symm
    · rw [ExtTreeMap.mem_keys, ExtTreeMap.mem_iff_isSome_getElem?, mem_map]
      constructor
      · rintro ⟨key, hkey, rfl⟩
        obtain ⟨r, hr, _⟩ := (h.rows key).mp (ExtTreeSet.mem_toList.mp hkey)
        rw [hr]
        rfl
      · intro hsome
        obtain ⟨r, hr⟩ := Option.isSome_iff_exists.mp hsome
        have hid : (receiptOrderKey r).id = id := h.keyed id r hr
        refine ⟨receiptOrderKey r, ExtTreeSet.mem_toList.mpr ((h.rows _).mpr ⟨r, ?_, rfl⟩), hid⟩
        rw [hid]
        exact hr
  calc db.order.size = (db.order.toList.map ReceiptOrderKey.id).length := by
        rw [length_map, ExtTreeSet.length_toList]
    _ = db.receipts.keys.length := hperm.length_eq
    _ = db.receipts.size := ExtTreeMap.length_keys

theorem size_write (db : ReceiptDb) (entry : StagedReceipt) :
    (db.write entry).receipts.size = db.receipts.size +
      if (db.mutationReceipt entry.stored.id).isNone then 1 else 0 := by
  show (db.receipts.insert _ _).size = _
  rw [ExtTreeMap.size_insert, mutationReceipt, ExtTreeMap.contains_eq_isSome_getElem?]
  cases db.receipts[entry.stored.id]? with
  | none => rfl
  | some r => rfl

theorem Paired.size_remove (h : db.Paired) (hkey : key ∈ db.order) :
    (db.remove key).receipts.size + 1 = db.receipts.size := by
  obtain ⟨r, hr, _⟩ := (h.rows key).mp hkey
  have hcontains : db.receipts.contains key.id = true := by
    rw [ExtTreeMap.contains_eq_isSome_getElem?, hr]
    rfl
  have hpos : 0 < db.receipts.size := by
    rw [← ExtTreeMap.length_keys]
    exact length_pos_of_mem (ExtTreeMap.mem_keys.mpr (ExtTreeMap.mem_iff_contains.mpr hcontains))
  show (db.receipts.erase key.id).size + 1 = _
  rw [ExtTreeMap.size_erase, if_pos hcontains]
  omega

/-- What writing entries leaves. -/
structure Wrote (db db' : ReceiptDb) (entries : List StagedReceipt) : Prop where
  paired : db'.Paired
  stored : ∀ e ∈ entries, db'.receipts[e.stored.id]? = some e.stored
  others : ∀ id, id ∉ entries.map (fun e => e.stored.id) → db'.receipts[id]? = db.receipts[id]?
  order : ∀ key ∈ db'.order, key ∈ db.order ∨ ∃ e ∈ entries, key = receiptOrderKey e.stored
  size : db'.receipts.size = db.receipts.size +
    entries.countP fun e => (db.mutationReceipt e.stored.id).isNone

/-- Entries of distinct identifiers that fit the rows can be written one after the other. -/
theorem Paired.wrote (h : db.Paired) {entries : List StagedReceipt}
    (hfits : ∀ e ∈ entries, db.Fits e) (hnodup : (entries.map fun e => e.stored.id).Nodup) :
    Wrote db (entries.foldl ReceiptDb.write db) entries := by
  induction entries generalizing db with
  | nil => exact ⟨h, by simp, by simp, fun key hkey => .inl hkey, rfl⟩
  | cons e es ih =>
    obtain ⟨hnew, hnodup⟩ := nodup_cons.mp hnodup
    -- the rest is about other identifiers, so it fits the rows after the first write too
    have hsame : ∀ e' ∈ es, (db.write e).receipts[e'.stored.id]? = db.receipts[e'.stored.id]? := by
      intro e' he'
      rw [receipts_write, if_neg]
      intro heq
      exact hnew (mem_map.mpr ⟨e', he', heq.symm⟩)
    have hrest := ih (h.write (hfits e mem_cons_self)) (fun e' he' => ?_) hnodup
    · refine ⟨hrest.paired, ?_, ?_, ?_, ?_⟩
      · refine forall_mem_cons.mpr ⟨?_, hrest.stored⟩
        rw [foldl_cons, hrest.others _ hnew, receipts_write, if_pos rfl]
      · intro id hid
        rw [map_cons, mem_cons, not_or] at hid
        rw [foldl_cons, hrest.others id hid.2, receipts_write, if_neg (Ne.symm hid.1)]
      · intro key hkey
        rcases hrest.order key hkey with hkey | ⟨e', he', hkey⟩
        · rcases (mem_order_write db e key).mp hkey with hkey | ⟨hkey, _⟩
          · exact .inr ⟨e, mem_cons_self, hkey⟩
          · exact .inl hkey
        · exact .inr ⟨e', mem_cons_of_mem _ he', hkey⟩
      · have hcount : es.countP (fun e' => ((db.write e).mutationReceipt e'.stored.id).isNone) =
            es.countP fun e' => (db.mutationReceipt e'.stored.id).isNone := by
          refine countP_congr fun e' he' => ?_
          rw [mutationReceipt, hsame e' he', mutationReceipt]
        rw [foldl_cons, hrest.size, hcount, size_write, countP_cons]
        omega
    · have hfit := hfits e' (mem_cons_of_mem _ he')
      refine ⟨fun r hr => hfit.replaces r ?_, hfit.keyed⟩
      rw [← hsame e' he']
      exact hr

/-- No removed row leaves its receipt. -/
theorem receipts_foldl_remove {keys : List ReceiptOrderKey} (hkey : key ∈ keys) :
    (keys.foldl ReceiptDb.remove db).receipts[key.id]? = none := by
  refine (Updates.foldl_iff_exists (P := fun db => db.receipts[key.id]? = none)
    (Q := fun key' => key'.id = key.id) (fun db key' => ?_) keys db).mpr (.inr ⟨key, hkey, rfl⟩)
  rw [receipts_remove]
  split_ifs with hid
  · simp [hid]
  · simp [hid]

/-- What removing order rows and their receipts leaves. -/
structure Removed (db db' : ReceiptDb) (keys : List ReceiptOrderKey) : Prop where
  paired : db'.Paired
  gone : ∀ key ∈ keys, db'.receipts[key.id]? = none
  others : ∀ id, id ∉ keys.map ReceiptOrderKey.id → db'.receipts[id]? = db.receipts[id]?
  order : ∀ key ∈ db'.order, key ∈ db.order ∧ key ∉ keys
  size : db'.receipts.size + keys.length = db.receipts.size

theorem Paired.removed (h : db.Paired) {keys : List ReceiptOrderKey}
    (hkeys : ∀ key ∈ keys, key ∈ db.order) (hnodup : keys.Nodup) :
    Removed db (keys.foldl ReceiptDb.remove db) keys := by
  induction keys generalizing db with
  | nil => exact ⟨h, by simp, by simp, fun key hkey => ⟨hkey, by simp⟩, rfl⟩
  | cons key keys ih =>
    obtain ⟨hnew, hnodup⟩ := nodup_cons.mp hnodup
    have hkey := hkeys key mem_cons_self
    have hrest := ih (h.remove hkey) (fun key' hkey' => ?_) hnodup
    · have hsize := hrest.size
      have hone := h.size_remove hkey
      refine ⟨hrest.paired, ?_, ?_, ?_, ?_⟩
      · exact fun key' hkey' => receipts_foldl_remove hkey'
      · intro id hid
        rw [map_cons, mem_cons, not_or] at hid
        rw [foldl_cons, hrest.others id hid.2, receipts_remove, if_neg (Ne.symm hid.1)]
      · intro key' hkey'
        obtain ⟨hmem, hnot⟩ := hrest.order key' hkey'
        obtain ⟨hne, hmem⟩ := (mem_order_remove db key key').mp hmem
        exact ⟨hmem, not_mem_cons_of_ne_of_not_mem hne hnot⟩
      · rw [foldl_cons, length_cons]
        omega
    · refine (mem_order_remove db key key').mpr ⟨?_, hkeys key' (mem_cons_of_mem _ hkey')⟩
      rintro rfl
      exact hnew hkey'

end ReceiptDb

/-! ## What a trim removes -/

def FloorBelow (floor : Option ReceiptOrderKey) (keys : List ReceiptOrderKey) : Prop :=
  ∀ f ∈ floor, ∀ key ∈ keys, (compare f key).isLE = true

variable {floor : Option ReceiptOrderKey}

theorem lowerFloor_spec {key f : ReceiptOrderKey} (h : f ∈ lowerFloor floor key) :
    (compare f key).isLE = true ∧ ∃ c ∈ floor, (compare f c).isLE = true := by
  obtain ⟨c, hc, rfl⟩ := Option.map_eq_some_iff.mp h
  by_cases hlt : compare key c = .lt
  · rw [if_pos hlt]
    exact ⟨by simp, c, hc, by simp [hlt]⟩
  · rw [if_neg hlt]
    refine ⟨?_, c, hc, by simp⟩
    exact Std.OrientedCmp.isGE_iff_isLE.mp (by simpa [Ordering.isGE_iff_ne_lt] using hlt)

theorem FloorBelow.lowerFloor {keys : List ReceiptOrderKey}
    (h : FloorBelow floor keys) (key : ReceiptOrderKey) : FloorBelow (lowerFloor floor key) keys := by
  intro f hf k hk
  obtain ⟨_, c, hc, hle⟩ := lowerFloor_spec hf
  exact TransCmp.isLE_trans hle (h c hc k hk)

theorem foldl_lowerFloor {keys : List ReceiptOrderKey}
    (h : FloorBelow floor keys) (receipts : List MutationReceipt) :
    FloorBelow (receipts.foldl (fun floor r => lowerFloor floor (receiptOrderKey r)) floor)
      (keys ++ receipts.map receiptOrderKey) := by
  induction receipts generalizing floor keys with
  | nil => simpa using h
  | cons r receipts ih =>
    have hstep : FloorBelow (lowerFloor floor (receiptOrderKey r)) (keys ++ [receiptOrderKey r]) := by
      intro f hf k hk
      rcases mem_append.mp hk with hk | hk
      · exact h.lowerFloor _ f hf k hk
      · rw [mem_singleton.mp hk]
        exact (lowerFloor_spec hf).1
    simpa using ih hstep

theorem firstReceipts_eq_self {seen : List MutationId} {receipts : List MutationReceipt}
    (hseen : ∀ r ∈ receipts, r.id ∉ seen) (hnodup : (receipts.map MutationReceipt.id).Nodup) :
    firstReceipts seen receipts = receipts := by
  induction receipts generalizing seen with
  | nil => rfl
  | cons r receipts ih =>
    obtain ⟨hnew, hnodup⟩ := nodup_cons.mp hnodup
    unfold firstReceipts
    rw [if_neg (hseen r mem_cons_self), ih ?_ hnodup]
    intro r' hr' hmem
    rcases mem_cons.mp hmem with heq | hmem
    · exact hnew (heq ▸ mem_map_of_mem hr')
    · exact hseen r' (mem_cons_of_mem _ hr') hmem

structure TrimScanned (db : ReceiptDb) (staged : List MutationId) (rows : List ReceiptOrderKey)
    (excess : Nat) (scan out : TrimScan) (more : List ReceiptOrderKey) : Prop where
  removed : out.removed = scan.removed ++ more
  sublist : more.Sublist rows
  unstaged : ∀ key ∈ more, key.id ∉ staged
  length : more.length ≤ excess
  stopped : scan.advance = false → out.next = scan.next
  floor : FloorBelow scan.next rows → rows.Pairwise (fun a b => compare a b = .lt) →
    ∀ f ∈ out.next, ∀ key ∈ rows, key ∉ more → (compare f key).isLE = true
  mono : scan.expired.getD 0 ≤ out.expired.getD 0
  expired : ∀ key ∈ more, ∀ r ∈ db.mutationReceipt key.id,
    r.admissionSequence ≤ out.expired.getD 0

theorem scanTrim_trimScanned (db : ReceiptDb) (staged : List MutationId) (rows : List ReceiptOrderKey)
    (excess : Nat) (scan : TrimScan) :
    ∃ more, TrimScanned db staged rows excess scan (scanTrim db staged excess rows scan) more := by
  induction rows generalizing excess scan with
  | nil =>
    refine ⟨[], ?_⟩
    cases excess <;>
      exact ⟨by simp [scanTrim], List.Sublist.refl _, by simp, by simp, fun _ => rfl,
        by simp, le_rfl, by simp⟩
  | cons key rows ih =>
    cases excess with
    | zero =>
      refine ⟨[], by simp [scanTrim], nil_sublist _, by simp, by simp, fun _ => rfl,
        fun hfloor _ f hf k hk _ => hfloor f hf k hk, le_rfl, by simp⟩
    | succ excess =>
      unfold scanTrim
      by_cases hstaged : key.id ∈ staged
      · -- the floor stays where it is, at or below the row that is kept
        rw [if_pos hstaged]
        obtain ⟨more, hmore⟩ := ih (excess + 1) { scan with advance := false }
        refine ⟨more, hmore.removed, hmore.sublist.cons key, hmore.unstaged, hmore.length,
          fun _ => hmore.stopped rfl, fun hfloor _ f hf k hk _ => ?_, hmore.mono,
          hmore.expired⟩
        rw [hmore.stopped rfl] at hf
        exact hfloor f hf k hk
      · rw [if_neg hstaged]
        set expired := match db.mutationReceipt key.id with
          | some receipt => some (max (scan.expired.getD 0) receipt.admissionSequence)
          | none => scan.expired with hexpired
        obtain ⟨more, hmore⟩ := ih excess
          { removed := scan.removed ++ [key]
            next := if scan.advance then some key else scan.next
            advance := scan.advance
            expired := expired }
        have hstep : scan.expired.getD 0 ≤ expired.getD 0 ∧
            ∀ r ∈ db.mutationReceipt key.id, r.admissionSequence ≤ expired.getD 0 := by
          rw [hexpired]
          cases db.mutationReceipt key.id with
          | none => simp
          | some receipt => simp
        refine ⟨key :: more, ?_, hmore.sublist.cons_cons key, ?_, ?_, ?_, ?_, ?_, ?_⟩
        · rw [hmore.removed, append_assoc]
          rfl
        · exact forall_mem_cons.mpr ⟨hstaged, hmore.unstaged⟩
        · exact Nat.succ_le_succ hmore.length
        · intro hadvance
          rw [hmore.stopped hadvance]
          simp [hadvance]
        · intro hfloor hsorted f hf k hk hnot
          obtain ⟨hfirst, hsorted⟩ := pairwise_cons.mp hsorted
          obtain ⟨hne, hnot⟩ := ne_and_not_mem_of_not_mem_cons hnot
          have hmem : k ∈ rows := (mem_cons.mp hk).resolve_left hne
          refine hmore.floor ?_ hsorted f hf k hmem hnot
          intro f hf k hk
          cases hadvance : scan.advance with
          | false =>
            simp only [hadvance] at hf
            exact hfloor f hf k (mem_cons_of_mem _ hk)
          | true =>
            simp only [hadvance] at hf
            cases hf
            rw [hfirst k hk]
            rfl
        · exact hstep.1.trans hmore.mono
        · refine forall_mem_cons.mpr ⟨fun r hr => ?_, hmore.expired⟩
          exact (hstep.2 r hr).trans hmore.mono

theorem lowestKey_spec {receipts : List MutationReceipt} :
    (lowestKey receipts = none → receipts = []) ∧
    ∀ key ∈ lowestKey receipts, ∀ r ∈ receipts, (compare key (receiptOrderKey r)).isLE = true := by
  -- from a key on, the lowest key is a floor that moves down
  have hfold : ∀ (receipts : List MutationReceipt) (start : ReceiptOrderKey), ∃ key,
      receipts.foldl (fun lowest r => lowerKey lowest (receiptOrderKey r)) (some start) =
        some key ∧
      receipts.foldl (fun floor r => lowerFloor floor (receiptOrderKey r)) (some start) =
        some key := by
    intro receipts
    induction receipts with
    | nil => exact fun start => ⟨start, rfl, rfl⟩
    | cons r receipts ih => exact fun start => ih _
  cases receipts with
  | nil => exact ⟨fun _ => rfl, by simp [lowestKey]⟩
  | cons r receipts =>
    obtain ⟨key, hkey, hfloor⟩ := hfold receipts (receiptOrderKey r)
    have hlowest : lowestKey (r :: receipts) = some key := hkey
    have hbelow : FloorBelow (some (receiptOrderKey r)) [receiptOrderKey r] := by
      simp [FloorBelow]
    have hall := foldl_lowerFloor hbelow receipts
    rw [hfloor] at hall
    refine ⟨fun hnone => by simp [hlowest] at hnone, fun key' hkey' r' hr' => ?_⟩
    rw [hlowest] at hkey'
    exact hall key' hkey' _ (mem_map_of_mem hr')

/-- What a trim decides for a batch of receipts with distinct identifiers. -/
structure Trimmed (db : ReceiptDb) (state : RetentionState) (pending : List MutationReceipt)
    (trim : Trim) : Prop where
  removed : ∀ key ∈ trim.removed, key ∈ db.order ∧ key.id ∉ pending.map MutationReceipt.id
  nodup : trim.removed.Nodup
  count : trim.state.receipts + trim.removed.length =
    state.receipts + pending.countP fun r => (db.mutationReceipt r.id).isNone
  kept : ∀ f ∈ trim.state.receiptFloor, ∀ key ∈ db.order, key ∉ trim.removed →
    (compare f key).isLE = true
  added : FloorBelow trim.state.receiptFloor (pending.map receiptOrderKey)
  mono : db.expired ≤ trim.expired
  expired : ∀ key ∈ trim.removed, ∀ r ∈ db.mutationReceipt key.id,
    r.admissionSequence ≤ trim.expired

theorem trimReceiptOrder_trimmed (limits : RetentionLimits) {db : ReceiptDb}
    {state : RetentionState} {pending : List MutationReceipt}
    (hfloor : FloorBelow state.receiptFloor db.order.toList)
    (hnodup : (pending.map MutationReceipt.id).Nodup) :
    Trimmed db state pending (trimReceiptOrder limits db state pending) := by
  have hfirst : firstReceipts [] pending = pending := firstReceipts_eq_self (by simp) hnodup
  have hlowered := foldl_lowerFloor hfloor pending
  unfold trimReceiptOrder
  simp only [hfirst]
  generalize pending.foldl (fun floor r => lowerFloor floor (receiptOrderKey r))
    state.receiptFloor = floor at hlowered
  have hrows : FloorBelow floor db.order.toList :=
    fun f hf key hkey => hlowered f hf key (mem_append_left _ hkey)
  split
  · refine ⟨by simp, nodup_nil, rfl, ?_, ?_, le_rfl, by simp⟩
    · exact fun f hf key hkey _ => hrows f hf key (ExtTreeSet.mem_toList.mpr hkey)
    · exact fun f hf key hkey => hlowered f hf key (mem_append_right _ hkey)
  -- no row is below the floor, so the scan sees all of them
  have hall : (db.order.toList.filter fun key => floor.all fun start => (compare start key).isLE) =
      db.order.toList := by
    refine filter_eq_self.mpr fun key hkey => ?_
    rw [Option.all_eq_true]
    exact fun f hf => hrows f hf key hkey
  rw [hall]
  obtain ⟨more, hmore⟩ := scanTrim_trimScanned db (pending.map MutationReceipt.id) db.order.toList
    (min (state.receipts + (pending.countP fun r => (db.mutationReceipt r.id).isNone) -
      limits.receiptRetention) limits.buildRows) ⟨[], floor, true, none⟩
  generalize scanTrim _ _ _ _ _ = out at hmore
  have hremoved : out.removed = more := hmore.removed
  have hkept := hmore.floor hrows ExtTreeSet.ordered_toList
  have hlength := hmore.length
  refine ⟨?_, ?_, ?_, ?_, ?_, Nat.le_max_left _ _, ?_⟩
  · rw [hremoved]
    exact fun key hkey =>
      ⟨ExtTreeSet.mem_toList.mp (hmore.sublist.subset hkey), hmore.unstaged key hkey⟩
  · rw [hremoved]
    exact (nodup_toList _).sublist hmore.sublist
  · show state.receipts + _ - out.removed.length + out.removed.length = _
    rw [hremoved]
    omega
  · rw [hremoved]
    intro f hf key hkey hnot
    have hscan := fun f hf => hkept f hf key (ExtTreeSet.mem_toList.mpr hkey) hnot
    split at hf
    · obtain ⟨_, c, hc, hle⟩ := lowerFloor_spec hf
      exact TransCmp.isLE_trans hle (hscan c hc)
    · exact hscan f hf
  · intro f hf key hkey
    obtain ⟨r, hr, rfl⟩ := mem_map.mp hkey
    split at hf
    · rename_i lowest hlowest
      exact TransCmp.isLE_trans (lowerFloor_spec hf).1 (lowestKey_spec.2 lowest hlowest r hr)
    · rename_i hnone
      rw [lowestKey_spec.1 hnone] at hr
      cases hr
  · rw [hremoved]
    exact fun key hkey r hr => (hmore.expired key hkey r hr).trans (Nat.le_max_right _ _)

/-! ## What a commit leaves -/

@[simp] theorem withSearchToken_id (token : Option Nat) (entry : StagedReceipt) :
    (withSearchToken token entry).stored.id = entry.stored.id := by
  cases token <;> rfl

@[simp] theorem withSearchToken_previous (token : Option Nat) (entry : StagedReceipt) :
    (withSearchToken token entry).previous = entry.previous := by
  cases token <;> rfl

def SameTicket (a b : MutationReceipt) : Prop :=
  a.graph = b.graph ∧ a.admissionSequence = b.admissionSequence

theorem SameTicket.symm {a b : MutationReceipt} (h : SameTicket a b) : SameTicket b a :=
  ⟨h.1.symm, h.2.symm⟩

theorem SameTicket.trans {a b c : MutationReceipt} (hab : SameTicket a b) (hbc : SameTicket b c) :
    SameTicket a c :=
  ⟨hab.1.trans hbc.1, hab.2.trans hbc.2⟩

theorem withSearchToken_ticket (token : Option Nat) (entry : StagedReceipt) :
    SameTicket (withSearchToken token entry).stored entry.stored := by
  cases token <;> exact ⟨rfl, rfl⟩

/-- What committing receipts leaves: the count and the floor fit the rows, the receipts are stored,
and of the others some are gone and below the watermark. -/
structure Committed (db : ReceiptDb) (entries : List StagedReceipt) (db' : ReceiptDb)
    (retention' : RetentionState) : Prop where
  paired : db'.Paired
  count : retention'.receipts = db'.receipts.size
  floor : FloorBelow retention'.receiptFloor db'.order.toList
  stored : ∀ e ∈ entries, db'.receipts[e.stored.id]? = some e.stored
  others : ∀ id, id ∉ entries.map (fun e => e.stored.id) →
    db'.receipts[id]? = db.receipts[id]? ∨
      (db'.receipts[id]? = none ∧ ∀ r ∈ db.receipts[id]?, r.admissionSequence ≤ db'.expired)
  mono : db.expired ≤ db'.expired

section Commit

variable {db : ReceiptDb} {retention : RetentionState} {entries : List StagedReceipt}

theorem commitEntries_committed (limits : RetentionLimits) (hpaired : db.Paired)
    (hcount : retention.receipts = db.receipts.size)
    (hfloor : FloorBelow retention.receiptFloor db.order.toList)
    (hfits : ∀ e ∈ entries, db.Fits e) (hnodup : (entries.map fun e => e.stored.id).Nodup) :
    Committed db entries (commitEntries limits db retention entries).1
      (commitEntries limits db retention entries).2 := by
  have hids : (entries.map StagedReceipt.stored).map MutationReceipt.id =
      entries.map fun e => e.stored.id := by rw [map_map]; rfl
  have hwrote := hpaired.wrote hfits hnodup
  have htrim := trimReceiptOrder_trimmed limits hfloor (hids ▸ hnodup)
  dsimp only [commitEntries]
  generalize trimReceiptOrder limits db retention (entries.map StagedReceipt.stored) = trim at htrim
  generalize entries.foldl ReceiptDb.write db = db₁ at hwrote
  -- the rows to remove are of receipts that the batch does not write
  have hunstaged : ∀ key ∈ trim.removed, key.id ∉ entries.map fun e => e.stored.id := by
    intro key hkey
    rw [← hids]
    exact (htrim.removed key hkey).2
  have hmem : ∀ key ∈ trim.removed, key ∈ db₁.order := by
    intro key hkey
    obtain ⟨r, hr, hrow⟩ := (hpaired.rows key).mp (htrim.removed key hkey).1
    refine (hwrote.paired.rows key).mpr ⟨r, ?_, hrow⟩
    rw [hwrote.others _ (hunstaged key hkey)]
    exact hr
  have hremoved := hwrote.paired.removed hmem htrim.nodup
  generalize trim.removed.foldl ReceiptDb.remove db₁ = db₂ at hremoved
  refine ⟨⟨hremoved.paired.keyed, hremoved.paired.rows⟩, ?_, ?_, ?_, ?_, htrim.mono⟩
  · have hsize := hremoved.size
    have hwritten := hwrote.size
    have htrimmed := htrim.count
    rw [countP_map] at htrimmed
    show trim.state.receipts = db₂.receipts.size
    have hsame : entries.countP ((fun r => (db.mutationReceipt r.id).isNone) ∘
        StagedReceipt.stored) = entries.countP fun e => (db.mutationReceipt e.stored.id).isNone := rfl
    omega
  · intro f hf key hkey
    obtain ⟨hkey, hnot⟩ := hremoved.order key (ExtTreeSet.mem_toList.mp hkey)
    rcases hwrote.order key hkey with hkey | ⟨e, he, rfl⟩
    · exact htrim.kept f hf key hkey hnot
    · refine htrim.added f hf _ ?_
      exact mem_map_of_mem (mem_map_of_mem he)
  · intro e he
    have hstays : e.stored.id ∉ trim.removed.map ReceiptOrderKey.id := by
      intro hid
      obtain ⟨key, hkey, heq⟩ := mem_map.mp hid
      exact hunstaged key hkey (heq ▸ mem_map_of_mem he)
    exact (hremoved.others _ hstays).trans (hwrote.stored e he)
  · intro id hid
    by_cases hgone : id ∈ trim.removed.map ReceiptOrderKey.id
    · obtain ⟨key, hkey, rfl⟩ := mem_map.mp hgone
      exact .inr ⟨hremoved.gone key hkey, htrim.expired key hkey⟩
    · exact .inl ((hremoved.others id hgone).trans (hwrote.others id hid))

theorem commitReceipts_committed (limits : RetentionLimits) (token : Option Nat)
    (hpaired : db.Paired) (hcount : retention.receipts = db.receipts.size)
    (hfloor : FloorBelow retention.receiptFloor db.order.toList)
    (hfits : ∀ e ∈ entries, db.Fits e) (hnodup : (entries.map fun e => e.stored.id).Nodup) :
    Committed db (entries.map (withSearchToken token))
      (commitReceipts limits db retention entries token).1
      (commitReceipts limits db retention entries token).2 := by
  unfold commitReceipts
  by_cases hempty : entries = []
  · rw [if_pos hempty, hempty]
    exact ⟨hpaired, hcount, hfloor, by simp, fun id _ => .inl rfl, le_rfl⟩
  rw [if_neg hempty]
  refine commitEntries_committed limits hpaired hcount hfloor ?_ ?_
  · refine forall_mem_map.mpr fun e he => ⟨?_, ?_⟩
    · simpa using (hfits e he).replaces
    · simpa using (hfits e he).keyed
  · rw [map_map]
    simpa [Function.comp_def] using hnodup

end Commit

end Craqle
