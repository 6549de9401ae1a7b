import Craqle.Lib.Transition
import Craqle.Store.Receipts

/-! # Runs of receipt retention

Batches are staged against committed receipts and committed later, so several are open at once and
one batch can trim what another has read. The guard of an identifier is held from staging to
commit. All callers but one take it: a restore that changes nothing stages its receipt without.

In every run in which receipts are staged under their guard, and no identifier is staged again
after its receipt was trimmed, the count and the floor fit the rows and a ticket is known or
expired. Both conditions are needed.
-/

namespace Craqle

open Transition List Function Option ReceiptDb
open Std (ExtTreeMap ExtTreeSet)

/-- A store with its open batches, the guards they hold, and the history of committed receipts,
newest first. -/
structure ReceiptRun where
  db : ReceiptDb
  retention : RetentionState
  receiptNext : Nat
  batches : Nat → List StagedReceipt
  guards : Nat → List MutationId
  written : List MutationReceipt

/-- The calls that touch receipts. Batches are numbered; the flag of a commit says whether the
database takes it, the flag of a staging whether the caller holds the guard. -/
inductive ReceiptStep
  | stageReceipt (batch : Nat) (receipt : MutationReceipt) (guarded : Bool)
  | stageReceiptUpdate (batch : Nat) (receipt : MutationReceipt)
  | commit (batch : Nat) (token : Option Nat) (commits : Bool)
  | abandon (batch : Nat)
  | bindReceiptEvent (id : MutationId) (event : OpId) (commits : Bool)
  | updateReceipt (receipt : MutationReceipt) (commits : Bool)
  | reopen

namespace ReceiptRun

def new : ReceiptRun := ⟨⟨∅, ∅, 0⟩, ⟨0, none⟩, 1, fun _ => [], fun _ => [], []⟩

/-- No open batch holds the guard of an identifier. -/
def Free (s : ReceiptRun) (id : MutationId) : Prop := ∀ b, id ∉ s.guards b

def push (s : ReceiptRun) (b : Nat) (entry : StagedReceipt) (guarded : Bool) : ReceiptRun :=
  { s with
    batches := update s.batches b (s.batches b ++ [entry])
    guards := if guarded then update s.guards b (entry.stored.id :: s.guards b) else s.guards }

/-- End a batch and release its guards. -/
def close (s : ReceiptRun) (b : Nat) : ReceiptRun :=
  { s with batches := update s.batches b [], guards := update s.guards b [] }

def stageReceipt (s : ReceiptRun) (b : Nat) (receipt : MutationReceipt) (guarded : Bool) :
    ReceiptRun :=
  match s.db.stageReceipt s.receiptNext receipt with
  | .staged entry next => { s.push b entry guarded with receiptNext := next }
  | .existing _ | .conflict => s

def stageReceiptUpdate (s : ReceiptRun) (b : Nat) (receipt : MutationReceipt) : ReceiptRun :=
  match s.db.stageReceiptUpdate receipt with
  | some entry => s.push b entry true
  | none => s

def entries (s : ReceiptRun) (b : Nat) (token : Option Nat) : List StagedReceipt :=
  (s.batches b).map (withSearchToken token)

def commit (limits : RetentionLimits) (s : ReceiptRun) (b : Nat) (token : Option Nat)
    (commits : Bool) : ReceiptRun :=
  if commits then
    let committed := commitReceipts limits s.db s.retention (s.batches b) token
    { s.close b with
      db := committed.1
      retention := committed.2
      written := ((s.entries b token).map StagedReceipt.stored).reverse ++ s.written }
  else s.close b

def bindReceiptEvent (s : ReceiptRun) (id : MutationId) (event : OpId) (commits : Bool) :
    ReceiptRun :=
  match s.db.bindReceiptEvent id event with
  | some (bound, db) => if commits then { s with db := db, written := bound :: s.written } else s
  | none => s

def updateReceipt (s : ReceiptRun) (receipt : MutationReceipt) (commits : Bool) : ReceiptRun :=
  match Craqle.updateReceipt s.db s.retention receipt with
  | some (stored, db, retention) =>
    if commits then { s with db := db, retention := retention, written := stored :: s.written }
    else s
  | none => s

/-- Open the store again. Batches that were not committed are gone. -/
def reopen (s : ReceiptRun) : ReceiptRun :=
  let restored := restoreReceiptNext s.db
  { db := restored.1
    retention := restored.2.1
    receiptNext := restored.2.2
    batches := fun _ => []
    guards := fun _ => []
    written := s.written }

end ReceiptRun

namespace ReceiptStep

/-- Calls that take a guard wait until it is free. -/
def Enabled (s : ReceiptRun) : ReceiptStep → Prop
  | stageReceipt _ receipt guarded => guarded = true → s.Free receipt.id
  | stageReceiptUpdate _ receipt => s.Free receipt.id
  | bindReceiptEvent id _ _ => s.Free id
  | updateReceipt receipt _ => s.Free receipt.id
  | commit _ _ _ | abandon _ | reopen => True

def apply (limits : RetentionLimits) (s : ReceiptRun) : ReceiptStep → ReceiptRun
  | stageReceipt b receipt guarded => s.stageReceipt b receipt guarded
  | stageReceiptUpdate b receipt => s.stageReceiptUpdate b receipt
  | commit b token commits => s.commit limits b token commits
  | abandon b => s.close b
  | bindReceiptEvent id event commits => s.bindReceiptEvent id event commits
  | updateReceipt receipt commits => s.updateReceipt receipt commits
  | reopen => s.reopen

def Guarded : ReceiptStep → Prop
  | stageReceipt _ _ guarded => guarded = true
  | _ => True

/-- No receipt is staged for an identifier whose receipt was committed and is gone. -/
def Fresh (s : ReceiptRun) : ReceiptStep → Prop
  | stageReceipt _ receipt _ =>
    s.db.mutationReceipt receipt.id = none → ∀ w ∈ s.written, w.id ≠ receipt.id
  | _ => True

/-- Both conditions. -/
def Careful (s : ReceiptRun) (i : ReceiptStep) : Prop := i.Guarded ∧ i.Fresh s

end ReceiptStep

def receiptSystem (limits : RetentionLimits) : Transition.System ReceiptRun ReceiptStep where
  init s := s = ReceiptRun.new
  step s i s' := i.Enabled s ∧ s' = i.apply limits s

/-! ## The invariant -/

/-- An open entry against the committed receipts: the first one of its identifier, or the rewrite
of a receipt that is still stored or was trimmed since. -/
def EntryOk (db : ReceiptDb) (written : List MutationReceipt) (e : StagedReceipt) : Prop :=
  match e.previous with
  | none => db.receipts[e.stored.id]? = none ∧ ∀ w ∈ written, w.id ≠ e.stored.id
  | some previous => previous.id = e.stored.id ∧ SameTicket e.stored previous ∧
      previous ∈ written ∧ ∀ r ∈ db.receipts[e.stored.id]?, r = previous

theorem EntryOk.fits {db : ReceiptDb} {written : List MutationReceipt} {e : StagedReceipt}
    (h : EntryOk db written e) : db.Fits e := by
  unfold EntryOk at h
  cases hprevious : e.previous with
  | none =>
    simp only [hprevious] at h
    exact ⟨fun r hr => by simp [h.1] at hr, by simp [hprevious]⟩
  | some previous =>
    simp only [hprevious] at h
    refine ⟨fun r hr => ?_, fun p hp => ?_⟩
    · rw [hprevious, h.2.2.2 r hr]
    · cases hprevious.symm.trans hp
      exact h.1

/-- Commits on other identifiers leave an entry in order, even if they trim its receipt. -/
theorem EntryOk.frame {db db' : ReceiptDb} {written new : List MutationReceipt}
    {e : StagedReceipt} (h : EntryOk db written e) (hnew : ∀ w ∈ new, w.id ≠ e.stored.id)
    (hdb : db'.receipts[e.stored.id]? = db.receipts[e.stored.id]? ∨
      db'.receipts[e.stored.id]? = none) : EntryOk db' (new ++ written) e := by
  unfold EntryOk at h ⊢
  cases hprevious : e.previous with
  | none =>
    simp only [hprevious] at h
    refine ⟨?_, fun w hw => ?_⟩
    · rcases hdb with hdb | hdb
      · rw [hdb, h.1]
      · exact hdb
    · rcases mem_append.mp hw with hw | hw
      · exact hnew w hw
      · exact h.2 w hw
  | some previous =>
    simp only [hprevious] at h
    refine ⟨h.1, h.2.1, mem_append_right _ h.2.2.1, fun r hr => ?_⟩
    rcases hdb with hdb | hdb
    · rw [hdb] at hr
      exact h.2.2.2 r hr
    · rw [hdb] at hr
      cases hr

/-- What holds in every state of a careful run. -/
structure ReceiptInv (s : ReceiptRun) : Prop where
  paired : s.db.Paired
  count : s.retention.receipts = s.db.receipts.size
  floor : FloorBelow s.retention.receiptFloor s.db.order.toList
  guarded : ∀ b, ∀ e ∈ s.batches b, e.stored.id ∈ s.guards b
  exclusive : ∀ b b' id, id ∈ s.guards b → id ∈ s.guards b' → b = b'
  nodup : ∀ b, ((s.batches b).map fun e => e.stored.id).Nodup
  pending : ∀ b, ∀ e ∈ s.batches b, EntryOk s.db s.written e
  latest : ∀ (id : MutationId) (r : MutationReceipt), s.db.receipts[id]? = some r →
    s.written.find? (fun w => w.id = id) = some r
  tickets : ∀ a ∈ s.written, ∀ c ∈ s.written, a.id = c.id → SameTicket a c
  expired : ∀ w ∈ s.written, s.db.receipts[w.id]? = none → w.admissionSequence ≤ s.db.expired

theorem receiptInv_new : ReceiptInv ReceiptRun.new := by
  refine ⟨⟨?_, ?_⟩, ?_, ?_, ?_, ?_, ?_, ?_, ?_, ?_, ?_⟩
  all_goals simp [ReceiptRun.new, FloorBelow]

/-! ## What each call keeps -/

section Stage

variable {db : ReceiptDb} {receipt : MutationReceipt} {entry : StagedReceipt} {next next' : Nat}

theorem stageReceipt_staged (h : db.stageReceipt next receipt = .staged entry next') :
    db.receipts[receipt.id]? = none ∧ entry.previous = none ∧ entry.stored.id = receipt.id := by
  unfold stageReceipt mutationReceipt at h
  cases hstored : db.receipts[receipt.id]? with
  | some existing =>
    simp only [hstored] at h
    split at h <;> cases h
  | none =>
    simp only [hstored] at h
    split at h
    · cases h
      exact ⟨rfl, rfl, rfl⟩
    · cases h
      exact ⟨rfl, rfl, rfl⟩

theorem withSequence_id (receipt previous : MutationReceipt) :
    (withSequence receipt previous).id = receipt.id := by
  unfold withSequence
  split <;> rfl

theorem withSequence_graph (receipt previous : MutationReceipt) :
    (withSequence receipt previous).graph = receipt.graph := by
  unfold withSequence
  split <;> rfl

theorem graph_of_sameRequest {a b : MutationReceipt} (h : a.sameRequest b = true) :
    a.graph = b.graph := by
  simp only [MutationReceipt.sameRequest, Bool.and_eq_true, decide_eq_true_eq] at h
  exact h.1.1.1.1.1.1.1

theorem stageReceiptUpdate_eq_some (h : db.stageReceiptUpdate receipt = some entry) :
    ∃ previous, db.receipts[receipt.id]? = some previous ∧ entry.previous = some previous ∧
      entry.stored.id = receipt.id ∧ SameTicket entry.stored previous := by
  unfold stageReceiptUpdate mutationReceipt at h
  cases hstored : db.receipts[receipt.id]? with
  | none => simp [hstored] at h
  | some previous =>
    simp only [hstored, ite_none_right_eq_some, Bool.and_eq_true, decide_eq_true_eq] at h
    obtain ⟨⟨⟨hsame, _⟩, hsequence⟩, rfl⟩ := h.imp_right some.inj
    refine ⟨previous, rfl, rfl, withSequence_id _ _, ?_, hsequence⟩
    rw [withSequence_graph]
    exact (graph_of_sameRequest hsame).symm

theorem updateReceipt_eq_some {retention retention' : RetentionState} {stored : MutationReceipt}
    {db' : ReceiptDb} (h : updateReceipt db retention receipt = some (stored, db', retention')) :
    ∃ previous, db.receipts[receipt.id]? = some previous ∧ stored.id = receipt.id ∧
      SameTicket stored previous ∧ db' = db.write ⟨stored, some previous⟩ ∧
      retention' = ⟨retention.receipts,
        lowerFloor retention.receiptFloor (receiptOrderKey stored)⟩ := by
  unfold updateReceipt mutationReceipt at h
  cases hstored : db.receipts[receipt.id]? with
  | none => simp [hstored] at h
  | some previous =>
    simp only [hstored, ite_none_right_eq_some, Bool.and_eq_true, decide_eq_true_eq] at h
    obtain ⟨⟨⟨hsame, _⟩, hsequence⟩, hresult⟩ := h
    cases hresult
    refine ⟨previous, rfl, withSequence_id _ _, ⟨?_, hsequence.symm⟩, rfl, rfl⟩
    rw [withSequence_graph]
    exact (graph_of_sameRequest hsame).symm

/-- Binding an event is a rewrite too: the order row is written where it stands. -/
theorem bindReceiptEvent_eq_some {id : MutationId} {event : OpId} {bound : MutationReceipt}
    {db' : ReceiptDb} (hpaired : db.Paired) (h : db.bindReceiptEvent id event = some (bound, db')) :
    ∃ previous, db.receipts[id]? = some previous ∧ bound.id = id ∧ SameTicket bound previous ∧
      db' = db.write ⟨bound, some previous⟩ ∧ receiptOrderKey bound = receiptOrderKey previous := by
  unfold bindReceiptEvent mutationReceipt at h
  cases hstored : db.receipts[id]? with
  | none => simp [hstored] at h
  | some previous =>
    simp only [hstored, ite_none_right_eq_some] at h
    cases h.2
    have hid : previous.id = id := hpaired.keyed id previous hstored
    refine ⟨previous, rfl, hid, ⟨rfl, rfl⟩, ?_, rfl⟩
    have hrow : receiptOrderKey previous ∈ db.order :=
      (hpaired.rows _).mpr ⟨previous, by rw [← hid] at hstored; exact hstored, rfl⟩
    have horder : db.order.insert (receiptOrderKey previous) = db.order := by
      refine ExtTreeSet.ext_mem fun key => ?_
      rw [Ordered.mem_insert]
      exact or_iff_right_of_imp fun heq => heq ▸ hrow
    -- the key does not depend on the event, so no row is erased
    have hkey : receiptOrderKey previous = receiptOrderKey { previous with eventId := some event } :=
      rfl
    simp only [write, if_pos hkey]
    rw [← hkey, horder]

end Stage

section Keeps

variable {s : ReceiptRun}

theorem ReceiptInv.push (h : ReceiptInv s) {b next : Nat} {entry : StagedReceipt}
    (hfree : s.Free entry.stored.id) (hentry : EntryOk s.db s.written entry) :
    ReceiptInv { s.push b entry true with receiptNext := next } := by
  -- the new guard was free, so whoever shares an identifier shares an old one
  have hold : ∀ b' id, id ∈ update s.guards b (entry.stored.id :: s.guards b) b' →
      id ∈ s.guards b' ∨ (b' = b ∧ id = entry.stored.id) := by
    intro b' id hid
    by_cases hb : b' = b
    · subst hb
      rw [update_self] at hid
      exact (mem_cons.mp hid).symm.imp_right (⟨rfl, ·⟩)
    · rw [update_of_ne hb] at hid
      exact .inl hid
  refine ⟨h.paired, h.count, h.floor, ?_, ?_, ?_, ?_, h.latest, h.tickets, h.expired⟩
  · refine (forall_update_iff s.batches fun b' es => ∀ e ∈ es, e.stored.id ∈
      update s.guards b (entry.stored.id :: s.guards b) b').mpr ⟨?_, fun b' hb => ?_⟩
    · rw [update_self, forall_mem_append, forall_mem_singleton]
      exact ⟨fun e he => mem_cons_of_mem _ (h.guarded b e he), mem_cons_self⟩
    · rw [update_of_ne hb]
      exact h.guarded b'
  · intro b₁ b₂ id h₁ h₂
    rcases hold b₁ id h₁ with hid₁ | ⟨hb₁, hid₁⟩
    · rcases hold b₂ id h₂ with hid₂ | ⟨_, hid₂⟩
      · exact h.exclusive b₁ b₂ id hid₁ hid₂
      · exact absurd (hid₂ ▸ hid₁) (hfree b₁)
    · rcases hold b₂ id h₂ with hid₂ | ⟨hb₂, _⟩
      · exact absurd (hid₁ ▸ hid₂) (hfree b₂)
      · exact hb₁.trans hb₂.symm
  · refine (forall_update_iff s.batches fun _ es =>
      (es.map fun e => e.stored.id).Nodup).mpr ⟨?_, fun b' _ => h.nodup b'⟩
    rw [map_append, nodup_append]
    refine ⟨h.nodup b, nodup_singleton _, fun x hx y hy heq => ?_⟩
    obtain ⟨e, he, rfl⟩ := mem_map.mp hx
    obtain rfl : y = entry.stored.id := by simpa using hy
    exact hfree b (heq ▸ h.guarded b e he)
  · refine (forall_update_iff s.batches fun _ es =>
      ∀ e ∈ es, EntryOk s.db s.written e).mpr ⟨?_, fun b' _ => h.pending b'⟩
    rw [forall_mem_append, forall_mem_singleton]
    exact ⟨h.pending b, hentry⟩

theorem ReceiptInv.close (h : ReceiptInv s) (b : Nat) : ReceiptInv (s.close b) := by
  have hheld : ∀ b' id, id ∈ update s.guards b [] b' → id ∈ s.guards b' := by
    intro b' id hid
    by_cases hb : b' = b
    · rw [hb, update_self] at hid
      cases hid
    · rwa [update_of_ne hb] at hid
  refine ⟨h.paired, h.count, h.floor, ?_, ?_, ?_, ?_, h.latest, h.tickets, h.expired⟩
  · refine (forall_update_iff s.batches fun b' es => ∀ e ∈ es, e.stored.id ∈
      update s.guards b [] b').mpr ⟨forall_mem_nil _, fun b' hb => ?_⟩
    rw [update_of_ne hb]
    exact h.guarded b'
  · exact fun b₁ b₂ id h₁ h₂ => h.exclusive b₁ b₂ id (hheld b₁ id h₁) (hheld b₂ id h₂)
  · refine (forall_update_iff s.batches fun _ es =>
      (es.map fun e => e.stored.id).Nodup).mpr ⟨?_, fun b' _ => h.nodup b'⟩
    exact nodup_nil
  · exact (forall_update_iff s.batches fun _ es =>
      ∀ e ∈ es, EntryOk s.db s.written e).mpr ⟨forall_mem_nil _, fun b' _ => h.pending b'⟩

theorem ReceiptInv.tickets_stored (h : ReceiptInv s) {w r : MutationReceipt} (hw : w ∈ s.written)
    (hr : s.db.receipts[w.id]? = some r) : SameTicket w r := by
  have hmem : r ∈ s.written := mem_of_find?_eq_some (h.latest w.id r hr)
  exact h.tickets w hw r hmem (h.paired.keyed w.id r hr).symm

/-- An open entry has the ticket of all committed receipts of its identifier. -/
theorem ReceiptInv.pending_ticket (h : ReceiptInv s) {b : Nat} {e : StagedReceipt}
    (he : e ∈ s.batches b) {w : MutationReceipt} (hw : w ∈ s.written) (hid : w.id = e.stored.id) :
    SameTicket e.stored w := by
  have hentry := h.pending b e he
  unfold EntryOk at hentry
  cases hprevious : e.previous with
  | none =>
    simp only [hprevious] at hentry
    exact absurd hid (hentry.2 w hw)
  | some previous =>
    simp only [hprevious] at hentry
    obtain ⟨hkeyed, hticket, hmem, _⟩ := hentry
    exact hticket.trans (h.tickets previous hmem w hw (hkeyed.trans hid.symm))

/-- What is committed beside the open batches, under their identifiers or trimmed. -/
theorem ReceiptInv.record (h : ReceiptInv s) {entries : List StagedReceipt} {db' : ReceiptDb}
    {retention' : RetentionState} (hcommitted : Committed s.db entries db' retention')
    (hopen : ∀ b, ∀ e ∈ s.batches b, e.stored.id ∉ entries.map fun e => e.stored.id)
    (hticket : ∀ e ∈ entries, ∀ w ∈ s.written, w.id = e.stored.id → SameTicket e.stored w) :
    ReceiptInv { s with
      db := db'
      retention := retention'
      written := (entries.map StagedReceipt.stored).reverse ++ s.written } := by
  have hnew : ∀ {w}, w ∈ (entries.map StagedReceipt.stored).reverse ↔
      ∃ e ∈ entries, e.stored = w := by simp
  refine ⟨hcommitted.paired, hcommitted.count, hcommitted.floor, h.guarded, h.exclusive, h.nodup,
    ?_, ?_, ?_, ?_⟩
  · intro b e he
    refine (h.pending b e he).frame (fun w hw heq => hopen b e he ?_) ?_
    · obtain ⟨e', he', rfl⟩ := hnew.mp hw
      exact mem_map.mpr ⟨e', he', heq⟩
    · exact (hcommitted.others _ (hopen b e he)).imp_right And.left
  · intro id r hr
    rw [find?_append]
    cases hfind : (entries.map StagedReceipt.stored).reverse.find? fun w => w.id = id with
    | some w =>
      obtain ⟨e, he, rfl⟩ := hnew.mp (mem_of_find?_eq_some hfind)
      have hid : e.stored.id = id := by simpa using find?_some hfind
      exact (hcommitted.stored e he).symm.trans (hid ▸ hr)
    | none =>
      rw [none_or]
      have hid : id ∉ entries.map fun e => e.stored.id := by
        intro hid
        obtain ⟨e, he, heq⟩ := mem_map.mp hid
        exact find?_eq_none.mp hfind e.stored (hnew.mpr ⟨e, he, rfl⟩) (decide_eq_true heq)
      rcases hcommitted.others id hid with hsame | ⟨hgone, _⟩
      · exact h.latest id r (hsame ▸ hr)
      · rw [hgone] at hr
        cases hr
  · intro a ha c hc hid
    rcases mem_append.mp ha with ha | ha
    · obtain ⟨e, he, rfl⟩ := hnew.mp ha
      rcases mem_append.mp hc with hc | hc
      · -- both are the receipt that is stored now
        obtain ⟨e', he', rfl⟩ := hnew.mp hc
        have hstored := hcommitted.stored e he
        rw [hid, hcommitted.stored e' he'] at hstored
        rw [some.inj hstored]
        exact ⟨rfl, rfl⟩
      · exact hticket e he c hc hid.symm
    · rcases mem_append.mp hc with hc | hc
      · obtain ⟨e, he, rfl⟩ := hnew.mp hc
        exact (hticket e he a ha hid).symm
      · exact h.tickets a ha c hc hid
  · intro w hw hnone
    have hid : w.id ∉ entries.map fun e => e.stored.id := by
      intro hid
      obtain ⟨e, he, heq⟩ := mem_map.mp hid
      rw [← heq] at hnone
      simp [hcommitted.stored e he] at hnone
    have hw : w ∈ s.written := by
      refine (mem_append.mp hw).resolve_left fun hmem => hid ?_
      obtain ⟨e, he, rfl⟩ := hnew.mp hmem
      exact mem_map_of_mem he
    cases hstored : s.db.receipts[w.id]? with
    | none => exact (h.expired w hw hstored).trans hcommitted.mono
    | some r =>
      -- its receipt was trimmed now
      rcases hcommitted.others w.id hid with hsame | ⟨_, hexpired⟩
      · rw [hnone, hstored] at hsame
        cases hsame
      · rw [(h.tickets_stored hw hstored).2]
        exact hexpired r hstored

/-- A commit keeps the invariant, whatever it trims. -/
theorem ReceiptInv.commit (limits : RetentionLimits) (h : ReceiptInv s) (b : Nat)
    (token : Option Nat) (commits : Bool) : ReceiptInv (s.commit limits b token commits) := by
  cases commits with
  | false => exact h.close b
  | true =>
    have hcommitted := commitReceipts_committed limits token h.paired h.count h.floor
      (fun e he => (h.pending b e he).fits) (h.nodup b)
    refine (h.close b).record hcommitted (fun b' e he hid => ?_) fun e he w hw hid => ?_
    · -- a receipt that the batch writes has a guard of the batch
      have hb : b' ≠ b := by
        rintro rfl
        simp [ReceiptRun.close] at he
      have hother : e ∈ s.batches b' := by simpa [ReceiptRun.close, hb] using he
      refine hb (h.exclusive b' b _ (h.guarded b' e hother) ?_)
      obtain ⟨_, hmem, heq⟩ := mem_map.mp hid
      obtain ⟨e', he', rfl⟩ := mem_map.mp hmem
      rw [← heq, withSearchToken_id]
      exact h.guarded b e' he'
    · obtain ⟨e', he', rfl⟩ := mem_map.mp he
      rw [withSearchToken_id] at hid
      exact (withSearchToken_ticket token e').trans (h.pending_ticket he' hw hid)

theorem ReceiptInv.rewrite (h : ReceiptInv s) {stored previous : MutationReceipt}
    (hstored : s.db.receipts[stored.id]? = some previous) (hticket : SameTicket stored previous)
    (hfree : s.Free stored.id) {floor : Option ReceiptOrderKey}
    (hfloor : FloorBelow floor (s.db.write ⟨stored, some previous⟩).order.toList) :
    ReceiptInv { s with
      db := s.db.write ⟨stored, some previous⟩
      retention := ⟨s.retention.receipts, floor⟩
      written := stored :: s.written } := by
  have hkeyed : previous.id = stored.id := h.paired.keyed _ _ hstored
  have hmem : previous ∈ s.written := mem_of_find?_eq_some (h.latest _ _ hstored)
  have hfits : s.db.Fits ⟨stored, some previous⟩ := by
    refine ⟨fun r hr => ?_, fun p hp => ?_⟩
    · exact hstored.symm.trans hr
    · cases hp
      exact hkeyed
  have hcommitted : Committed s.db [⟨stored, some previous⟩] (s.db.write ⟨stored, some previous⟩)
      ⟨s.retention.receipts, floor⟩ := by
    refine ⟨h.paired.write hfits, ?_, hfloor, ?_, fun id hid => .inl ?_, le_rfl⟩
    · rw [size_write, mutationReceipt, hstored]
      exact h.count
    · rw [forall_mem_singleton, receipts_write, if_pos rfl]
    · rw [receipts_write, if_neg fun heq => hid (mem_singleton.mpr heq.symm)]
  refine h.record hcommitted (fun b e he hid => ?_) fun e he w hw hid => ?_
  · have hid : e.stored.id = stored.id := mem_singleton.mp hid
    exact hfree b (hid ▸ h.guarded b e he)
  · obtain rfl := mem_singleton.mp he
    exact hticket.trans (h.tickets previous hmem w hw (hkeyed.trans hid.symm))

theorem ReceiptInv.reopen (h : ReceiptInv s) : ReceiptInv s.reopen := by
  have hpaired : (restoreReceiptNext s.db).1.Paired := by
    refine ⟨h.paired.keyed, fun key => ?_⟩
    have hinsert : ∀ (order : ExtTreeSet ReceiptOrderKey) r,
        key ∈ order.insert (receiptOrderKey r) ↔ key ∈ order ∨ receiptOrderKey r = key := by
      simp [or_comm]
    -- every receipt has its row already
    refine (Updates.foldl_iff_exists (P := (key ∈ ·)) hinsert _ _).trans
      ((or_iff_left_of_imp ?_).trans (h.paired.rows key))
    rintro ⟨r, hr, rfl⟩
    obtain ⟨⟨id, _⟩, hentry, rfl⟩ := mem_map.mp hr
    have hstored := ExtTreeMap.mem_toList_iff_getElem?_eq_some.mp hentry
    refine (h.paired.rows _).mpr ⟨_, ?_, rfl⟩
    rw [show (receiptOrderKey _).id = id from h.paired.keyed _ _ hstored]
    exact hstored
  refine ⟨hpaired, ?_, ?_, ?_, ?_, ?_, ?_, h.latest, h.tickets, h.expired⟩
  · show (s.db.receipts.toList.map Prod.snd).length = s.db.receipts.size
    rw [length_map, ExtTreeMap.length_toList]
  · intro f hf
    cases hf
  · exact fun b e he => absurd he not_mem_nil
  · exact fun b _ id hid => absurd hid not_mem_nil
  · exact fun b => nodup_nil
  · exact fun b e he => absurd he not_mem_nil

/-- One careful call keeps the invariant. -/
theorem receiptInv_apply (limits : RetentionLimits) {i : ReceiptStep} (h : ReceiptInv s)
    (henabled : i.Enabled s) (hcareful : i.Careful s) : ReceiptInv (i.apply limits s) := by
  cases i with
  | stageReceipt b receipt guarded =>
    obtain ⟨rfl, hnew⟩ := hcareful
    show ReceiptInv (s.stageReceipt b receipt true)
    unfold ReceiptRun.stageReceipt
    cases hstage : s.db.stageReceipt s.receiptNext receipt with
    | conflict => exact h
    | existing r => exact h
    | staged entry next =>
      obtain ⟨hnone, hprevious, hid⟩ := stageReceipt_staged hstage
      refine h.push (hid ▸ henabled rfl) ?_
      unfold EntryOk
      rw [hprevious, hid]
      exact ⟨hnone, hnew hnone⟩
  | stageReceiptUpdate b receipt =>
    show ReceiptInv (s.stageReceiptUpdate b receipt)
    unfold ReceiptRun.stageReceiptUpdate
    cases hstage : s.db.stageReceiptUpdate receipt with
    | none => exact h
    | some entry =>
      obtain ⟨previous, hstored, hprevious, hid, hticket⟩ := stageReceiptUpdate_eq_some hstage
      refine h.push (hid ▸ henabled) ?_
      unfold EntryOk
      rw [hprevious, hid]
      refine ⟨h.paired.keyed _ _ hstored, hticket,
        mem_of_find?_eq_some (h.latest _ _ hstored), fun r hr => ?_⟩
      exact some.inj (hr.symm.trans hstored)
  | commit b token commits => exact h.commit limits b token commits
  | abandon b => exact h.close b
  | bindReceiptEvent id event commits =>
    show ReceiptInv (s.bindReceiptEvent id event commits)
    unfold ReceiptRun.bindReceiptEvent
    cases hbind : s.db.bindReceiptEvent id event with
    | none => exact h
    | some out =>
      obtain ⟨bound, db'⟩ := out
      obtain ⟨previous, hstored, rfl, hticket, rfl, hkey⟩ := bindReceiptEvent_eq_some h.paired hbind
      cases commits with
      | false => exact h
      | true =>
        refine h.rewrite hstored hticket henabled fun f hf key hmem => ?_
        refine h.floor f hf key (ExtTreeSet.mem_toList.mpr ?_)
        rcases (mem_order_write _ _ _).mp (ExtTreeSet.mem_toList.mp hmem) with
          rfl | ⟨hmem, _⟩
        · refine (h.paired.rows _).mpr ⟨previous, ?_, hkey.symm⟩
          exact hstored
        · exact hmem
  | updateReceipt receipt commits =>
    show ReceiptInv (s.updateReceipt receipt commits)
    unfold ReceiptRun.updateReceipt
    cases hupdate : updateReceipt s.db s.retention receipt with
    | none => exact h
    | some out =>
      obtain ⟨stored, db', retention'⟩ := out
      obtain ⟨previous, hstored, hid, hticket, rfl, rfl⟩ := updateReceipt_eq_some hupdate
      cases commits with
      | false => exact h
      | true =>
        refine h.rewrite (hid ▸ hstored) hticket (hid ▸ henabled) fun f hf key hmem => ?_
        rcases (mem_order_write _ _ _).mp (ExtTreeSet.mem_toList.mp hmem) with
          rfl | ⟨hmem, _⟩
        · exact (lowerFloor_spec hf).1
        · exact h.floor.lowerFloor _ f hf key (ExtTreeSet.mem_toList.mpr hmem)
  | reopen => exact h.reopen

end Keeps

/-! ## Retention -/

theorem receiptInv_reachable {limits : RetentionLimits} {s : ReceiptRun}
    (h : Reachable (receiptSystem limits) (fun s i => i.Careful s) s) :
    ReceiptInv s := by
  refine h.invariant ?_ ?_
  · rintro _ rfl
    exact receiptInv_new
  · rintro s i _ hs hcareful ⟨henabled, rfl⟩
    exact receiptInv_apply limits hs henabled hcareful

def MutationReceipt.ticket (r : MutationReceipt) : MutationLookup :=
  ⟨r.graph, r.id, some r.admissionSequence⟩

theorem ReceiptInv.receiptStatus {s : ReceiptRun} (h : ReceiptInv s) {w : MutationReceipt}
    (hw : w ∈ s.written) : s.db.receiptStatus w.ticket = .expired ∨
      ∃ r, s.db.receiptStatus w.ticket = .known r ∧
        s.written.find? (fun r => r.id = w.id) = some r := by
  unfold ReceiptDb.receiptStatus ReceiptDb.mutationReceipt MutationReceipt.ticket
  cases hstored : s.db.receipts[w.id]? with
  | none => exact .inl (if_pos (h.expired w hw hstored))
  | some r =>
    obtain ⟨hgraph, hsequence⟩ := h.tickets_stored hw hstored
    refine .inr ⟨r, ?_, h.latest w.id r hstored⟩
    simp [hgraph, hsequence]

/-- **Receipts are retained.** In every careful run, for any limits: the stored count is the number
of order rows; no order row is below the stored floor; a commit stores every receipt it has
staged; and the ticket of a committed receipt is expired, or known with the latest receipt. -/
theorem receipts_retained {limits : RetentionLimits} {s : ReceiptRun}
    (h : Transition.Reachable (receiptSystem limits) (fun s i => i.Careful s) s) :
    s.retention.receipts = s.db.order.size ∧
    (∀ f ∈ s.retention.receiptFloor, ∀ key ∈ s.db.order, (compare f key).isLE = true) ∧
    (∀ b token, ∀ e ∈ s.entries b token,
      (s.commit limits b token true).db.receipts[e.stored.id]? = some e.stored) ∧
    (∀ w ∈ s.written, s.db.receiptStatus w.ticket = .expired ∨
      ∃ r, s.db.receiptStatus w.ticket = .known r ∧
        s.written.find? (fun r => r.id = w.id) = some r) := by
  have hinv := receiptInv_reachable h
  refine ⟨hinv.count.trans hinv.paired.size_eq.symm, ?_, ?_, fun w hw => hinv.receiptStatus hw⟩
  · exact fun f hf key hkey => hinv.floor f hf key (ExtTreeSet.mem_toList.mpr hkey)
  · intro b token e he
    have hcommitted := commitReceipts_committed limits token hinv.paired hinv.count hinv.floor
      (fun e he => (hinv.pending b e he).fits) (hinv.nodup b)
    exact hcommitted.stored e he

/-! ## Runs that admit one mutation after the other -/

def ReceiptRun.admitReceipt (limits : RetentionLimits) (s : ReceiptRun) (receipt : MutationReceipt) :
    ReceiptRun :=
  (s.stageReceipt 0 receipt true).commit limits 0 none true

def ReceiptRun.Idle (s : ReceiptRun) : Prop :=
  s.batches = (fun _ => []) ∧ s.guards = fun _ => []

variable {limits : RetentionLimits} {s : ReceiptRun} {receipt : MutationReceipt}

theorem admitReceipt_eq (hidle : s.Idle) (hnone : s.db.receipts[receipt.id]? = none)
    (hsequence : receipt.admissionSequence = 0) :
    s.admitReceipt limits receipt =
      { s with
        db := (commitEntries limits s.db s.retention
          [⟨{ receipt with admissionSequence := s.receiptNext }, none⟩]).1
        retention := (commitEntries limits s.db s.retention
          [⟨{ receipt with admissionSequence := s.receiptNext }, none⟩]).2
        receiptNext := s.receiptNext + 1
        written := { receipt with admissionSequence := s.receiptNext } :: s.written } := by
  have hstage : s.db.stageReceipt s.receiptNext receipt =
      .staged ⟨{ receipt with admissionSequence := s.receiptNext }, none⟩ (s.receiptNext + 1) := by
    simp [stageReceipt, mutationReceipt, hnone, hsequence]
  obtain ⟨db, retention, next, batches, guards, written⟩ := s
  obtain ⟨rfl, rfl⟩ := hidle
  simp only [ReceiptRun.admitReceipt, ReceiptRun.stageReceipt, hstage, ReceiptRun.commit, if_true,
    ReceiptRun.entries, ReceiptRun.push, ReceiptRun.close, update_self,
    update_idem, nil_append, map_cons, map_nil, reverse_singleton, singleton_append]
  have hclosed : ∀ {α : Type} (b : Nat), update (fun _ : Nat => ([] : List α)) b [] = fun _ => [] :=
    fun b => update_eq_self b _
  rw [hclosed, hclosed]
  rfl

theorem reachable_admitReceipt {allowed : ReceiptRun → ReceiptStep → Prop}
    (h : Reachable (receiptSystem limits) allowed s) (hidle : s.Idle)
    (hstage : allowed s (.stageReceipt 0 receipt true))
    (hcommit : ∀ s' b token commits, allowed s' (.commit b token commits)) :
    Reachable (receiptSystem limits) allowed (s.admitReceipt limits receipt) := by
  refine .step (.commit 0 none true) (.step (.stageReceipt 0 receipt true) h hstage ⟨?_, rfl⟩)
    (hcommit _ _ _ _) ⟨trivial, rfl⟩
  intro _ b hid
  rw [hidle.2] at hid
  cases hid

/-- While there is room, a new receipt adds one to the count. -/
theorem trimReceiptOrder_room {stored : MutationReceipt} (hnone : s.db.receipts[stored.id]? = none)
    (hroom : s.retention.receipts + 1 ≤ limits.receiptRetention) :
    (trimReceiptOrder limits s.db s.retention [stored]).state.receipts =
      s.retention.receipts + 1 := by
  have hone : [stored].countP (fun r => (s.db.mutationReceipt r.id).isNone) = 1 := by
    simp [mutationReceipt, hnone]
  have hfirst : firstReceipts [] [stored] = [stored] := rfl
  have hexcess : min (s.retention.receipts + 1 - limits.receiptRetention) limits.buildRows = 0 := by
    omega
  simp only [trimReceiptOrder, hfirst, hone, if_pos hexcess]

/-- A new receipt past the limit takes the place of another one. -/
theorem exists_trimmed (h : ReceiptInv s) {stored : MutationReceipt}
    (hnone : s.db.receipts[stored.id]? = none)
    (hfull : limits.receiptRetention < s.retention.receipts + 1) (hrows : 0 < limits.buildRows)
    (hrow : ∃ key, key ∈ s.db.order) :
    ∃ key ∈ s.db.order,
      (commitEntries limits s.db s.retention [⟨stored, none⟩]).1.receipts[key.id]? = none := by
  have htrimmed : Trimmed s.db s.retention [stored] _ :=
    trimReceiptOrder_trimmed limits h.floor (nodup_singleton _)
  obtain ⟨key, hkey⟩ : ∃ key, key ∈ (trimReceiptOrder limits s.db s.retention [stored]).removed := by
    have hone : [stored].countP (fun r => (s.db.mutationReceipt r.id).isNone) = 1 := by
      simp [mutationReceipt, hnone]
    have hfirst : firstReceipts [] [stored] = [stored] := rfl
    obtain ⟨excess, hexcess⟩ : ∃ excess, min (s.retention.receipts + 1 - limits.receiptRetention)
        limits.buildRows = excess + 1 := Nat.exists_eq_succ_of_ne_zero (by omega)
    simp only [trimReceiptOrder, hfirst, hone, hexcess, Nat.add_one_ne_zero, if_false]
    obtain ⟨first, hfirst⟩ := hrow
    have hunstaged : ∀ key ∈ s.db.order, key.id ∉ [stored].map MutationReceipt.id := by
      intro key hkey hid
      obtain ⟨r, hr, _⟩ := (h.paired.rows key).mp hkey
      rw [mem_singleton.mp hid, hnone] at hr
      cases hr
    generalize hscanned : s.db.order.toList.filter _ = rows
    have hmem : first ∈ rows := by
      rw [← hscanned, mem_filter, Option.all_eq_true, ExtTreeSet.mem_toList]
      exact ⟨hfirst, fun f hf => h.floor.lowerFloor _ f hf first (ExtTreeSet.mem_toList.mpr hfirst)⟩
    cases rows with
    | nil => cases hmem
    | cons key rows =>
      have hkey : key ∈ filter _ s.db.order.toList := hscanned ▸ mem_cons_self
      have hout := hunstaged key (ExtTreeSet.mem_toList.mp (mem_filter.mp hkey).1)
      obtain ⟨more, hmore⟩ := scanTrim_trimScanned s.db ([stored].map _) rows excess _
      refine ⟨key, ?_⟩
      rw [scanTrim, if_neg hout, hmore.removed]
      exact mem_append_left _ mem_concat_self
  exact ⟨key, (htrimmed.removed key hkey).1, receipts_foldl_remove hkey⟩

def sampleReceipt (n : Nat) : MutationReceipt :=
  ⟨BitVec.ofNat 256 n, 0, sampleGraph, 0, none, none, none, none, none, none, [], .prepared, 0,
    BitVec.ofNat 64 n⟩

/-- Two mutations where one receipt is kept. -/
def trimmedRun : ReceiptRun :=
  (ReceiptRun.new.admitReceipt ⟨1, 1⟩ (sampleReceipt 1)).admitReceipt ⟨1, 1⟩ (sampleReceipt 2)

/-- The receipt of the second mutation takes the place of the first, whose ticket is expired. -/
theorem receipts_retained_one :
    trimmedRun.db.receiptStatus ⟨sampleGraph, 1, some 1⟩ = .expired ∧
      (∃ r, trimmedRun.db.receiptStatus ⟨sampleGraph, 2, some 2⟩ = .known r) ∧
      trimmedRun.retention.receipts = 1 := by
  have hfirst : Reachable (receiptSystem ⟨1, 1⟩) (fun s i => i.Careful s)
      (ReceiptRun.new.admitReceipt ⟨1, 1⟩ (sampleReceipt 1)) := by
    refine reachable_admitReceipt (.init rfl) ⟨rfl, rfl⟩ ⟨rfl, fun _ w hw => ?_⟩
      fun _ _ _ _ => ⟨trivial, trivial⟩
    cases hw
  have hadmitted : ReceiptRun.new.admitReceipt ⟨1, 1⟩ (sampleReceipt 1) = _ :=
    admitReceipt_eq ⟨rfl, rfl⟩ (by decide +kernel) rfl
  have hreach : Reachable (receiptSystem ⟨1, 1⟩) (fun s i => i.Careful s) trimmedRun := by
    refine reachable_admitReceipt hfirst (hadmitted ▸ ⟨rfl, rfl⟩) ⟨rfl, fun _ => ?_⟩
      fun _ _ _ _ => ⟨trivial, trivial⟩
    decide +kernel
  obtain ⟨hcount, _, _, hticket⟩ := receipts_retained hreach
  have hsecond := hticket { sampleReceipt 2 with admissionSequence := 2 } (by decide +kernel)
  obtain ⟨r, hknown, -⟩ := hsecond.resolve_left (by decide +kernel)
  exact ⟨by decide +kernel, ⟨r, hknown⟩, hcount.trans (by decide +kernel)⟩

/-! ## Tickets and counts that are lost -/

section Lost

theorem sampleReceipt_id_inj {i j : Nat} (hi : i < 2 ^ 256) (hj : j < 2 ^ 256)
    (h : (sampleReceipt i).id = (sampleReceipt j).id) : i = j := by
  have htoNat := congrArg BitVec.toNat h
  simp only [sampleReceipt, BitVec.toNat_ofNat] at htoNat
  omega

def admittedReceipt (n : Nat) : MutationReceipt :=
  { sampleReceipt n with admissionSequence := n + 1 }

/-- A careful run has admitted the first `n` sample mutations. -/
structure Admitted (limits : RetentionLimits) (s : ReceiptRun) (n : Nat) : Prop where
  reach : Transition.Reachable (receiptSystem limits) (fun s i => i.Careful s) s
  idle : s.Idle
  next : s.receiptNext = n + 1
  written : ∀ w, w ∈ s.written ↔ ∃ i < n, w = admittedReceipt i

variable {n : Nat}

theorem Admitted.stored (h : Admitted limits s n) {id : MutationId} {r : MutationReceipt}
    (hr : s.db.receipts[id]? = some r) : ∃ i < n, (sampleReceipt i).id = id := by
  have hinv := receiptInv_reachable h.reach
  have hmem : r ∈ s.written := mem_of_find?_eq_some (hinv.latest id r hr)
  obtain ⟨i, hi, hadmitted⟩ := (h.written r).mp hmem
  have hid : r.id = id := hinv.paired.keyed id r hr
  exact ⟨i, hi, (congrArg MutationReceipt.id hadmitted).symm.trans hid⟩

theorem Admitted.notStored (h : Admitted limits s n) (hn : n < 2 ^ 256) :
    s.db.receipts[(sampleReceipt n).id]? = none := by
  refine eq_none_iff_forall_ne_some.mpr fun r hr => ?_
  obtain ⟨i, hi, hid⟩ := h.stored hr
  have heq : i = n := sampleReceipt_id_inj (by omega) hn hid
  omega

theorem Admitted.succ (h : Admitted limits s n) (hn : n < 2 ^ 256) :
    Admitted limits (s.admitReceipt limits (sampleReceipt n)) (n + 1) := by
  have hnone := h.notStored hn
  have hstate := @admitReceipt_eq limits s (sampleReceipt n) h.idle hnone rfl
  refine ⟨?_, hstate ▸ h.idle, ?_, fun w => ?_⟩
  · refine reachable_admitReceipt h.reach h.idle ⟨rfl, fun _ w hw hid => ?_⟩
      fun _ _ _ _ => ⟨trivial, trivial⟩
    obtain ⟨i, hi, rfl⟩ := (h.written w).mp hw
    have heq : i = n := sampleReceipt_id_inj (by omega) hn hid
    omega
  · rw [hstate]
    exact congrArg (· + 1) h.next
  · rw [hstate]
    show w ∈ _ :: s.written ↔ _
    rw [mem_cons, h.written, h.next]
    constructor
    · rintro (rfl | ⟨i, hi, rfl⟩)
      · exact ⟨n, Nat.lt_succ_self n, rfl⟩
      · exact ⟨i, Nat.lt_succ_of_lt hi, rfl⟩
    · rintro ⟨i, hi, rfl⟩
      rcases Nat.lt_succ_iff_lt_or_eq.mp hi with hi | rfl
      · exact .inr ⟨i, hi, rfl⟩
      · exact .inl rfl

/-- As long as there is room, every mutation counts. -/
theorem exists_admitted (hsmall : limits.receiptRetention < 2 ^ 256)
    (hn : n ≤ limits.receiptRetention) :
    ∃ s, Admitted limits s n ∧ s.retention.receipts = n := by
  induction n with
  | zero => exact ⟨.new, ⟨.init rfl, ⟨rfl, rfl⟩, rfl, by simp [ReceiptRun.new]⟩, rfl⟩
  | succ n ih =>
    obtain ⟨s, hs, hcount⟩ := ih (by omega)
    have hnone := hs.notStored (by omega)
    refine ⟨_, hs.succ (by omega), ?_⟩
    rw [admitReceipt_eq hs.idle hnone rfl]
    have hroom : s.retention.receipts + 1 ≤ limits.receiptRetention := by omega
    have hstate := @trimReceiptOrder_room limits s
      { sampleReceipt n with admissionSequence := s.receiptNext } hnone hroom
    rw [hcount] at hstate
    exact hstate

/-- One mutation past the limit trims the receipt of an earlier one. -/
theorem exists_gone (hsmall : limits.receiptRetention < 2 ^ 256)
    (hpos : 0 < limits.receiptRetention) (hrows : 0 < limits.buildRows) :
    ∃ s, ∃ i < limits.receiptRetention, Admitted limits s (limits.receiptRetention + 1) ∧
      s.db.receipts[(sampleReceipt i).id]? = none := by
  obtain ⟨s, hs, hcount⟩ := exists_admitted hsmall le_rfl
  have hinv := receiptInv_reachable hs.reach
  have hnone := hs.notStored hsmall
  have hrow : ∃ key, key ∈ s.db.order := by
    have hsize : s.db.order.toList.length = limits.receiptRetention := by
      rw [ExtTreeSet.length_toList, hinv.paired.size_eq, ← hinv.count, hcount]
    obtain ⟨key, hkey⟩ := exists_mem_of_length_pos (hsize ▸ hpos)
    exact ⟨key, ExtTreeSet.mem_toList.mp hkey⟩
  obtain ⟨key, hkey, hgone⟩ := @exists_trimmed limits s hinv
    { sampleReceipt limits.receiptRetention with admissionSequence := s.receiptNext } hnone
    (by omega) hrows hrow
  obtain ⟨r, hr, _⟩ := (hinv.paired.rows key).mp hkey
  obtain ⟨i, hi, hid⟩ := hs.stored hr
  refine ⟨_, i, hi, hs.succ hsmall, ?_⟩
  rw [admitReceipt_eq hs.idle hnone rfl, hid]
  exact hgone

/-- A mutation that is admitted again after its receipt was trimmed makes its first ticket
unknown: the receipt now stored under the identifier has another sequence. -/
theorem exists_unknown_ticket (hsmall : limits.receiptRetention < 2 ^ 256)
    (hpos : 0 < limits.receiptRetention) (hrows : 0 < limits.buildRows) :
    ∃ s, Reachable (receiptSystem limits) (fun _ i => i.Guarded) s ∧
      ∃ w ∈ s.written, s.db.receiptStatus w.ticket = .unknown := by
  obtain ⟨s, i, hi, hs, hgone⟩ := exists_gone hsmall hpos hrows
  have hinv := receiptInv_reachable hs.reach
  refine ⟨s.admitReceipt limits (sampleReceipt i), ?_, admittedReceipt i, ?_, ?_⟩
  · exact reachable_admitReceipt (hs.reach.mono fun _ _ h => h.1) hs.idle rfl fun _ _ _ _ => trivial
  · rw [admitReceipt_eq hs.idle hgone rfl]
    exact mem_cons_of_mem _ ((hs.written _).mpr ⟨i, by omega, rfl⟩)
  · rw [admitReceipt_eq hs.idle hgone rfl]
    have hfits : s.db.Fits ⟨{ sampleReceipt i with admissionSequence := s.receiptNext }, none⟩ := by
      refine ⟨fun r hr => ?_, fun previous hprevious => nomatch hprevious⟩
      exact absurd (hgone.symm.trans hr) nofun
    have hcommitted := commitEntries_committed limits hinv.paired hinv.count hinv.floor
      (forall_mem_singleton.mpr hfits) (nodup_singleton _)
    have hstored : mutationReceipt _ (admittedReceipt i).ticket.id = _ :=
      hcommitted.stored _ (mem_singleton_self _)
    have hother : (admittedReceipt i).admissionSequence ≠ s.receiptNext := by
      have := hs.next
      simp [admittedReceipt]
      omega
    rw [receiptStatus, hstored]
    simp [MutationReceipt.ticket, hother]

/-- Two batches stage a first receipt of one mutation, one of them without the guard, and both
commit. -/
def raceRun : ReceiptRun :=
  let first := ReceiptRun.new.stageReceipt 0 (sampleReceipt 1) false
  let second := first.stageReceipt 1 { sampleReceipt 1 with updatedUnixNanos := 2 } true
  (second.commit .store 0 none true).commit .store 1 none true

theorem raceRun_reachable : Reachable (receiptSystem .store) (fun s i => i.Fresh s)
    raceRun := by
  refine .step (.commit 1 none true) (.step (.commit 0 none true)
    (.step (.stageReceipt 1 { sampleReceipt 1 with updatedUnixNanos := 2 } true)
      (.step (.stageReceipt 0 (sampleReceipt 1) false) (.init rfl) ?_ ⟨?_, rfl⟩) ?_ ⟨?_, rfl⟩)
    trivial ⟨trivial, rfl⟩) trivial ⟨trivial, rfl⟩
  · exact fun _ w hw => nomatch hw
  · exact nofun
  · -- nothing was committed when the second receipt is staged
    exact fun _ w hw => nomatch hw
  · -- and no guard is held
    exact fun _ b hid => nomatch hid

/-- Neither condition can be dropped. When mutations are staged without their guard, the count is
not the number of order rows. When a trimmed mutation is admitted again, its first ticket is
unknown. -/
theorem receipts_lost :
    (∃ s, Transition.Reachable (receiptSystem .store) (fun s i => i.Fresh s) s ∧
      s.retention.receipts ≠ s.db.order.size) ∧
    (∃ s, Transition.Reachable (receiptSystem .store) (fun _ i => i.Guarded) s ∧
      ∃ w ∈ s.written, s.db.receiptStatus w.ticket = .unknown) := by
  refine ⟨⟨raceRun, raceRun_reachable, by decide +kernel⟩, ?_⟩
  exact exists_unknown_ticket (by decide) (by decide) (by decide)

end Lost

end Craqle
