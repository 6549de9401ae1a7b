import Craqle.Lib.Transition
import Craqle.Store.Queue

/-! # Runs of the search queue

No work is lost: in every state of a run the order rows are the entries, each at its oldest token,
and none is below the floor, so the queue head is the oldest work; and what an acknowledgement
removes has no enqueue past the token it covers. One call must not acknowledge an entry up to two
different tokens, since both are settled against the rows committed before the call.
-/

namespace Craqle

open List QueueDb QueueDb.Working SearchQueue
open Std (ExtTreeMap ExtTreeSet)

/-- A queue with the history of its committed enqueues. -/
structure SearchRun where
  queue : SearchQueue
  enqueued : List (FtsQueueKey × Nat)

/-- The calls that touch the queue. The flag says whether the database takes the batch. -/
inductive QueueStep
  | commitDurable (pending : PendingFts) (commits : Bool)
  | ensureReindex (graph : TermId) (commits : Bool)
  | queueSearchRebuild (graphs : List TermId) (distinct : graphs.Nodup) (commits : Bool)
  | acknowledgeFtsQueue (queued : List (TermId × TermId × Nat)) (commits : Bool)
  | acknowledgeReindex (queued : List (TermId × Nat)) (commits : Bool)
  | acknowledgeDeletes (queued : List (TermId × Nat)) (commits : Bool)
  | acknowledgeReindexed (queued : List (TermId × Nat)) (commits : Bool)
  | acknowledgeDeleted (queued : List (TermId × Nat)) (commits : Bool)
  | clearGraphQueue (graph : TermId) (upto : Nat) (commits : Bool)
  | clearFtsQueue (commits : Bool)
  | queueHead
  | reopen

def Staging.enqueues (staged : Bool × Staging) (commits : Bool) : List (FtsQueueKey × Nat) :=
  if staged.1 && commits then staged.2.stamped else []

def QueueStep.apply (r : SearchRun) : QueueStep → SearchRun
  | commitDurable pending commits =>
    ⟨r.queue.commitDurable pending commits,
      r.enqueued ++ Staging.enqueues (r.queue.stage pending.order) commits⟩
  | ensureReindex graph commits =>
    ⟨r.queue.ensureReindex graph commits, match r.queue.db.entries[FtsQueueKey.reindex graph]? with
      | some _ => r.enqueued
      | none => r.enqueued ++ Staging.enqueues (r.queue.stage [.reindex graph]) commits⟩
  | queueSearchRebuild graphs _ commits =>
    ⟨r.queue.queueSearchRebuild graphs commits,
      r.enqueued ++ Staging.enqueues (r.queue.stage (graphs.map .reindex)) commits⟩
  | acknowledgeFtsQueue queued commits =>
    { r with queue := r.queue.acknowledgeFtsQueue queued commits }
  | acknowledgeReindex queued commits =>
    { r with queue := r.queue.acknowledgeReindex queued commits }
  | acknowledgeDeletes queued commits =>
    { r with queue := r.queue.acknowledgeDeletes queued commits }
  | acknowledgeReindexed queued commits =>
    { r with queue := r.queue.acknowledgeReindexed queued commits }
  | acknowledgeDeleted queued commits =>
    { r with queue := r.queue.acknowledgeDeleted queued commits }
  | clearGraphQueue graph upto commits =>
    { r with queue := r.queue.clearGraphQueue graph upto commits }
  | clearFtsQueue commits => { r with queue := r.queue.clearFtsQueue commits }
  | queueHead => { r with queue := r.queue.queueHead.2 }
  | reopen => { r with queue := r.queue.reopen }

/-- A new store, opened for the first time. -/
def SearchQueue.new : SearchQueue := ⟨⟨∅, ∅, 0⟩, 1, 0, 0⟩

def queueSystem : Transition.System SearchRun QueueStep where
  init r := r = ⟨SearchQueue.new, []⟩
  step r i r' := i.apply r = r'

/-- The three acknowledgements of listed entries name no entry with two different tokens. -/
def QueueStep.Coherent : QueueStep → Prop
  | acknowledgeFtsQueue queued _ => Craqle.Coherent (subjectAcks queued)
  | acknowledgeReindex queued _ => Craqle.Coherent (reindexAcks queued)
  | acknowledgeDeletes queued _ => Craqle.Coherent (deleteAcks queued)
  | _ => True

/-- What holds in every state of a run. -/
structure QueueInv (r : SearchRun) : Prop where
  sound : r.queue.db.Sound r.enqueued
  above : r.queue.db.Above r.queue.queueFloor
  counter : r.queue.db.head < r.queue.dirtyCounter ∧ r.queue.dirtyCounter < 2 ^ 64
  committed : r.queue.db.head ≤ r.queue.dirtyCommitted ∧
    r.queue.dirtyCommitted < r.queue.dirtyCounter

theorem queueInv_new : QueueInv ⟨new, []⟩ := by
  refine ⟨⟨?_, ?_, ?_, ?_⟩, ?_, ?_, ?_⟩
  · intro c
    simp [new]
  · intro k tokens hk
    simp [new] at hk
  · simp
  · simp
  · intro c hc
    simp [new] at hc
  · decide
  · decide

section Steps

variable {r : SearchRun} {q : SearchQueue} {batch : QueueDb} {floor : Nat}
  {covers : FtsQueueKey → Nat → Prop} {keys : List FtsQueueKey}

section

variable (h : QueueInv r)
include h

theorem QueueInv.staged (hnodup : keys.Nodup) :
    Staged r.queue r.enqueued (r.queue.stage keys).2 := by
  refine Staged.stageKeys h.sound h.counter.1 hnodup ?_ (by simp)
  refine ⟨start h.sound.paired, h.above, ?_, ?_, by simp, ⟨le_rfl, h.counter.2⟩,
    le_rfl⟩
  · exact fun k tokens hk => (h.sound.within k tokens hk).imp_right .inl
  · rw [append_nil]
    exact h.sound.latest

theorem QueueInv.publish {staged : Bool × Staging} {token : Option Nat}
    (hstaged : Staged r.queue r.enqueued staged.2)
    (hhead : r.queue.db.head ≤ token.getD r.queue.db.head)
    (hreach : ∀ p ∈ staged.2.stamped, p.2 ≤ token.getD r.queue.db.head)
    (hbelow : token.getD r.queue.db.head < staged.2.counter) (commits : Bool) :
    QueueInv ⟨r.queue.publish staged token commits,
      r.enqueued ++ Staging.enqueues staged commits⟩ := by
  have hcounter := hstaged.counter
  have hcommitted := h.committed
  unfold SearchQueue.publish Staging.enqueues
  by_cases hcommits : (staged.1 && commits) = true
  · simp only [if_pos hcommits]
    refine ⟨⟨hstaged.working.paired, ?_, ?_, hstaged.latest⟩, hstaged.above,
      ⟨hbelow, hcounter.2⟩, ?_⟩
    · intro k tokens hk
      obtain ⟨hle, hold | ⟨p, hp, hlatest⟩⟩ := hstaged.within k tokens hk
      · exact ⟨hle, hold.trans hhead⟩
      · exact ⟨hle, hlatest.le.trans (hreach p hp)⟩
    · intro p hp
      rcases mem_append.mp hp with hp | hp
      · exact (h.sound.stamped p hp).trans hhead
      · exact hreach p hp
    · cases token with
      | none => exact ⟨hcommitted.1, hcommitted.2.trans_le hcounter.1⟩
      | some token =>
        have hlt : token < staged.2.counter := hbelow
        show token ≤ max r.queue.dirtyCommitted token ∧
          max r.queue.dirtyCommitted token < staged.2.counter
        omega
  · -- a refused batch leaves the rows, with the floor lowered and the tokens spent
    simp only [if_neg hcommits, append_nil]
    refine ⟨h.sound, fun c hc => hstaged.floor.trans (h.above c hc), ?_, ?_⟩
    · exact ⟨h.counter.1.trans_le hcounter.1, hcounter.2⟩
    · exact ⟨hcommitted.1, hcommitted.2.trans_le hcounter.1⟩

omit h in
/-- The greatest token of a batch. -/
theorem Staged.max_stamped {staging : Staging} (h : Staged r.queue r.enqueued staging) {token : Nat}
    (hmax : (staging.stamped.map Prod.snd).max? = some token) :
    (r.queue.dirtyCounter ≤ token ∧ token < staging.counter) ∧
      ∀ p ∈ staging.stamped, p.2 ≤ token := by
  obtain ⟨hmem, hle⟩ := max?_eq_some_iff.mp hmax
  obtain ⟨p, hp, rfl⟩ := mem_map.mp hmem
  exact ⟨h.stamped p hp, fun p' hp' => hle _ (mem_map_of_mem hp')⟩

theorem QueueInv.publish_max (hnodup : keys.Nodup) (commits : Bool) :
    QueueInv ⟨r.queue.publish (r.queue.stage keys)
      ((r.queue.stage keys).2.stamped.map Prod.snd).max? commits,
      r.enqueued ++ Staging.enqueues (r.queue.stage keys) commits⟩ := by
  have hstaged := h.staged hnodup
  have hcounter := h.counter.1
  cases hmax : ((r.queue.stage keys).2.stamped.map Prod.snd).max? with
  | none =>
    have hnil : (r.queue.stage keys).2.stamped = [] := by simpa using hmax
    refine h.publish hstaged le_rfl ?_ ?_ commits
    · simp [hnil]
    · exact hcounter.trans_le hstaged.counter.1
  | some token =>
    obtain ⟨⟨hge, hlt⟩, hle⟩ := hstaged.max_stamped hmax
    refine h.publish hstaged ?_ ?_ ?_ commits
    · exact hcounter.le.trans hge
    · exact hle
    · exact hlt

theorem QueueInv.publish_rebuild (hnodup : keys.Nodup) (commits : Bool) :
    QueueInv ⟨r.queue.publish (r.queue.stage keys)
        (some (((r.queue.stage keys).2.stamped.map Prod.snd).foldl max r.queue.dirtyCommitted))
        commits, r.enqueued ++ Staging.enqueues (r.queue.stage keys) commits⟩ := by
  have hstaged := h.staged hnodup
  have hcommitted := h.committed
  have hcounter := hstaged.counter.1
  rw [foldl_max]
  cases hmax : ((r.queue.stage keys).2.stamped.map Prod.snd).max? with
  | none =>
    have hnil : (r.queue.stage keys).2.stamped = [] := by simpa using hmax
    refine h.publish hstaged ?_ (by simp [hnil]) ?_ commits
    · exact hcommitted.1.trans (Nat.le_max_left _ _)
    · simp only [Option.getD_some, Option.getD_none, Nat.max_self]
      omega
  | some token =>
    obtain ⟨⟨_, hlt⟩, hle⟩ := hstaged.max_stamped hmax
    refine h.publish hstaged ?_ ?_ ?_ commits
    · exact hcommitted.1.trans (Nat.le_max_left _ _)
    · exact fun p hp => (hle p hp).trans (Nat.le_max_right _ _)
    · simp only [Option.getD_some]
      omega

/-- Rows left by an acknowledgement. -/
theorem QueueInv.acknowledged (hpaired : batch.Paired) (habove : batch.Above floor)
    (hack : r.queue.db.Acknowledges batch covers) :
    QueueInv ⟨{ r.queue with queueFloor := floor, db := batch }, r.enqueued⟩ := by
  refine ⟨⟨hpaired, ?_, ?_, ?_⟩, habove, ?_, ?_⟩
  · intro k tokens hk
    obtain ⟨stored, hstored, hlatest, hle⟩ := hack.kept k tokens hk
    have hwithin := h.sound.within k stored hstored
    rw [hack.head]
    exact ⟨hle, hlatest.le.trans hwithin.2⟩
  · rw [hack.head]
    exact h.sound.stamped
  · intro p hp tokens htokens
    obtain ⟨stored, hstored, hlatest, _⟩ := hack.kept p.1 tokens htokens
    rw [hlatest]
    exact h.sound.latest p hp stored hstored
  · rw [hack.head]
    exact h.counter
  · rw [hack.head]
    exact h.committed

theorem QueueInv.acknowledges_start :
    r.queue.db.Acknowledges r.queue.db covers where
  head := rfl
  kept k tokens hk := ⟨tokens, hk, rfl, (h.sound.within k tokens hk).1⟩
  removed k stored hk hnone := by simp [hk] at hnone

theorem QueueInv.settleAll_acknowledges (queued : List (FtsQueueKey × Nat)) (commits : Bool) :
    r.queue.db.Acknowledges (r.queue.settleAll queued commits).db fun k t => (k, t) ∈ queued := by
  cases commits with
  | false => exact h.acknowledges_start
  | true =>
    refine foldlRecOn (motive := fun w : Nat × QueueDb =>
      r.queue.db.Acknowledges w.2 fun k t => (k, t) ∈ queued) queued _ h.acknowledges_start ?_
    exact fun w hw entry hentry => settleFtsEntry_acknowledges hentry hw

theorem QueueInv.settleAll {queued : List (FtsQueueKey × Nat)}
    (hco : Coherent queued) (commits : Bool) :
    QueueInv { r with queue := r.queue.settleAll queued commits } := by
  have habove : (queued.foldl (settleFtsEntry r.queue.db) (r.queue.queueFloor, r.queue.db)).1 ≤
      r.queue.queueFloor ∧ QueueDb.Above _ _ :=
    foldlRecOn (motive := fun w : Nat × QueueDb =>
      w.1 ≤ r.queue.queueFloor ∧ w.2.Above w.1) queued _ ⟨le_rfl, h.above⟩
      fun w hw _ _ => settleFtsEntry_above hw
  have hack := h.settleAll_acknowledges queued commits
  cases commits with
  | false =>
    refine h.acknowledged h.sound.paired ?_ hack
    exact fun c hc => habove.1.trans (h.above c hc)
  | true =>
    refine h.acknowledged ?_ habove.2 hack
    have hworking : r.queue.db.Working
        (queued.foldl (settleFtsEntry r.queue.db) (r.queue.queueFloor, r.queue.db)).2
        (narrowedTo r.queue.db queued) :=
      foldlRecOn (motive := fun w : Nat × QueueDb =>
        r.queue.db.Working w.2 (narrowedTo r.queue.db queued)) queued _
        (start h.sound.paired)
        fun w hw entry hentry => settleFtsEntry_working hco hentry hw
    exact hworking.paired

theorem QueueInv.retireAll_acknowledges
    {retired : List (FtsQueueKey × DirtyTokens)}
    (hretired : ∀ entry ∈ retired, r.queue.db.entries[entry.1]? = some entry.2 ∧
      ∃ token, covers entry.1 token ∧ entry.2.latest ≤ token) (commits : Bool) :
    r.queue.db.Acknowledges (r.queue.retireAll retired commits).db covers := by
  cases commits with
  | false => exact h.acknowledges_start
  | true =>
    refine foldlRecOn (motive := fun batch => r.queue.db.Acknowledges batch covers)
      retired _ h.acknowledges_start ?_
    intro batch hbatch entry hentry
    obtain ⟨hstored, token, hcovers, hle⟩ := hretired entry hentry
    exact hbatch.retire hstored hcovers hle

theorem QueueInv.retireAll {retired : List (FtsQueueKey × DirtyTokens)}
    (hretired : ∀ entry ∈ retired, r.queue.db.entries[entry.1]? = some entry.2) (commits : Bool) :
    QueueInv { r with queue := r.queue.retireAll retired commits } := by
  have hack : r.queue.db.Acknowledges (r.queue.retireAll retired commits).db fun _ _ => True :=
    h.retireAll_acknowledges
      (fun entry hentry => ⟨hretired entry hentry, _, trivial, le_rfl⟩) commits
  cases commits with
  | false => exact h.acknowledged h.sound.paired h.above hack
  | true =>
    have hrows := foldlRecOn (motive := fun batch : QueueDb =>
      r.queue.db.Working batch (fun _ _ => False) ∧ batch.Above r.queue.queueFloor) retired
      retire ⟨start h.sound.paired, h.above⟩
      fun batch hbatch entry hentry =>
        ⟨hbatch.1.retire (hretired entry hentry) fun _ hfalse => hfalse, hbatch.2.retire entry⟩
    exact h.acknowledged hrows.1.paired hrows.2 hack

/-- **The queue head is the oldest work**: the first order row of all. -/
theorem QueueInv.queueHead_spec :
    (∀ c, r.queue.queueHead.1 = some c →
      c ∈ r.queue.db.order ∧ ∀ c' ∈ r.queue.db.order, c.token ≤ c'.token) ∧
    (r.queue.queueHead.1 = none → ∀ c, c ∉ r.queue.db.order) := by
  constructor
  · intro c hc
    obtain ⟨_, before, after, hsplit, hbefore⟩ := find?_eq_some_iff_append.mp hc
    have hsorted : (before ++ c :: after).Pairwise fun a b => compare a b = .lt := by
      rw [← hsplit]
      exact ExtTreeSet.ordered_toList
    refine ⟨ExtTreeSet.mem_toList.mp (by rw [hsplit]; simp), fun c' hc' => ?_⟩
    have hmem : c' ∈ before ++ c :: after := by
      rw [← hsplit]
      exact ExtTreeSet.mem_toList.mpr hc'
    rcases mem_append.mp hmem with hmem | hmem
    · -- nothing is skipped, as no row is below the floor
      have hskipped := hbefore c' hmem
      simp [h.above c' hc'] at hskipped
    · rcases mem_cons.mp hmem with rfl | hmem
      · exact le_rfl
      · have hlt := rel_of_pairwise_cons (pairwise_append.mp hsorted).2.1 hmem
        exact QueueCursor.token_le_of_lt hlt
  · intro hnone c hc
    have hskipped := find?_eq_none.mp hnone c (ExtTreeSet.mem_toList.mpr hc)
    simp [h.above c hc] at hskipped

theorem QueueInv.queueHead : QueueInv { r with queue := r.queue.queueHead.2 } := by
  refine ⟨h.sound, fun c hc => ?_, h.counter, h.committed⟩
  refine Nat.max_le.mpr ⟨h.above c hc, ?_⟩
  show Option.elim r.queue.queueHead.1 r.queue.dirtyCounter QueueCursor.token ≤ c.token
  cases hhead : r.queue.queueHead.1 with
  | none => exact absurd hc (h.queueHead_spec.2 hhead c)
  | some first => exact (h.queueHead_spec.1 first hhead).2 c hc

theorem QueueInv.reopen : QueueInv { r with queue := r.queue.reopen } := by
  have hcounter := h.counter
  have hnext : min (r.queue.db.head + 1) (2 ^ 64 - 1) = r.queue.db.head + 1 := by omega
  refine ⟨h.sound, fun c _ => Nat.zero_le _, ?_, ?_⟩
  · show r.queue.db.head < min _ _ ∧ min _ _ < _
    omega
  · show r.queue.db.head ≤ r.queue.db.head ∧ r.queue.db.head < min _ _
    omega

end

theorem mem_flatMap_filter {queued : List (TermId × Nat)}
    {debts : TermId → List (FtsQueueKey × DirtyTokens)} {entry : FtsQueueKey × DirtyTokens} :
    entry ∈ queued.flatMap (fun e => (debts e.1).filter fun debt => debt.2.latest ≤ e.2) ↔
      ∃ graph token, (graph, token) ∈ queued ∧ entry ∈ debts graph ∧ entry.2.latest ≤ token := by
  simp

/-- One call keeps the invariant. -/
theorem queueInv_apply {i : QueueStep} (h : QueueInv r) (hco : i.Coherent) :
    QueueInv (i.apply r) := by
  cases i with
  | commitDurable pending commits => exact h.publish_max pending.nodup commits
  | ensureReindex graph commits =>
    dsimp only [QueueStep.apply, ensureReindex]
    cases r.queue.db.entries[FtsQueueKey.reindex graph]? with
    | some tokens => exact h
    | none => exact h.publish_max (nodup_singleton _) commits
  | queueSearchRebuild graphs distinct commits =>
    refine h.publish_rebuild (distinct.map ?_) commits
    exact fun a b hab => FtsQueueKey.reindex.inj hab
  | acknowledgeFtsQueue queued commits | acknowledgeReindex queued commits
  | acknowledgeDeletes queued commits => exact h.settleAll hco commits
  | acknowledgeReindexed queued commits =>
    refine h.retireAll (fun entry hentry => ?_) commits
    obtain ⟨graph, token, _, hdebt, _⟩ := mem_flatMap_filter.mp hentry
    exact (mem_subjectsOf.mp hdebt).1
  | acknowledgeDeleted queued commits =>
    refine h.retireAll (fun entry hentry => ?_) commits
    obtain ⟨graph, token, _, hdebt, _⟩ := mem_flatMap_filter.mp hentry
    exact (mem_overtakenBy hdebt).1
  | clearGraphQueue graph upto commits =>
    refine h.settleAll ?_ commits
    intro a ha b hb _
    obtain ⟨_, _, rfl⟩ := mem_map.mp ha
    obtain ⟨_, _, rfl⟩ := mem_map.mp hb
    rfl
  | clearFtsQueue commits =>
    refine h.retireAll (fun entry hentry => ?_) commits
    exact ExtTreeMap.mem_toList_iff_getElem?_eq_some.mp hentry
  | queueHead => exact h.queueHead
  | reopen => exact h.reopen

end Steps

/-! ## No work is lost -/

namespace QueueStep

/-- The token up to which a call acknowledges an entry. -/
def Covers : QueueStep → FtsQueueKey → Nat → Prop
  | acknowledgeFtsQueue queued _, k, t => (k, t) ∈ subjectAcks queued
  | acknowledgeReindex queued _, k, t => (k, t) ∈ reindexAcks queued
  | acknowledgeDeletes queued _, k, t => (k, t) ∈ deleteAcks queued
  | acknowledgeReindexed queued _, k, t => ∃ g, (g, t) ∈ queued ∧ k.isSubjectOf g = true
  | acknowledgeDeleted queued _, k, t =>
    ∃ g, (g, t) ∈ queued ∧ (k.isSubjectOf g = true ∨ k = .reindex g)
  | clearGraphQueue graph upto _, k, t => k.graph = graph ∧ t = upto
  | _, _, _ => False

/-- The calls that acknowledge work up to a token. -/
def isAcknowledgement : QueueStep → Bool
  | acknowledgeFtsQueue _ _ | acknowledgeReindex _ _ | acknowledgeDeletes _ _
  | acknowledgeReindexed _ _ | acknowledgeDeleted _ _ | clearGraphQueue _ _ _ => true
  | _ => false

end QueueStep

/-- What an acknowledgement does, whatever it names. -/
theorem acknowledges_of_isAcknowledgement {r : SearchRun} {i : QueueStep} (h : QueueInv r)
    (hack : i.isAcknowledgement = true) :
    r.queue.db.Acknowledges (i.apply r).queue.db i.Covers := by
  cases i with
  | acknowledgeFtsQueue queued commits | acknowledgeReindex queued commits
  | acknowledgeDeletes queued commits => exact h.settleAll_acknowledges _ commits
  | acknowledgeReindexed queued commits =>
    refine h.retireAll_acknowledges (fun entry hentry => ?_) commits
    obtain ⟨graph, token, hqueued, hdebt, hle⟩ := mem_flatMap_filter.mp hentry
    obtain ⟨hstored, hsubject⟩ := mem_subjectsOf.mp hdebt
    exact ⟨hstored, token, ⟨graph, hqueued, hsubject⟩, hle⟩
  | acknowledgeDeleted queued commits =>
    refine h.retireAll_acknowledges (fun entry hentry => ?_) commits
    obtain ⟨graph, token, hqueued, hdebt, hle⟩ := mem_flatMap_filter.mp hentry
    obtain ⟨hstored, hkey⟩ := mem_overtakenBy hdebt
    exact ⟨hstored, token, ⟨graph, hqueued, hkey⟩, hle⟩
  | clearGraphQueue graph upto commits =>
    have hsettled := h.settleAll_acknowledges
      ((r.queue.db.keysOf graph).map fun key => (key, upto)) commits
    refine ⟨hsettled.head, hsettled.kept, fun k stored hstored hnone => ?_⟩
    obtain ⟨token, hcovers, hle⟩ := hsettled.removed k stored hstored hnone
    obtain ⟨key, hkey, heq⟩ := mem_map.mp hcovers
    cases heq
    exact ⟨upto, ⟨graph_of_mem_keysOf hkey, rfl⟩, hle⟩
  | commitDurable | ensureReindex | queueSearchRebuild | clearFtsQueue | queueHead | reopen =>
    cases hack

theorem queueInv_reachable {r : SearchRun}
    (h : Transition.Reachable queueSystem (fun _ i => i.Coherent) r) : QueueInv r := by
  refine h.invariant ?_ ?_
  · rintro _ rfl
    exact queueInv_new
  · rintro s i _ hs hco rfl
    exact queueInv_apply hs hco

/-- **The search queue loses no work.** In every run whose acknowledgements name no entry with two
different tokens: order rows and entries correspond, each row at its entry's oldest token; no row
is below the floor; the queue head is the oldest work; and what an acknowledgement removes has no
enqueue past the token it covers. -/
theorem queue_keeps_work {r : SearchRun}
    (h : Transition.Reachable queueSystem (fun _ i => i.Coherent) r) :
    r.queue.db.Paired ∧ r.queue.db.Above r.queue.queueFloor ∧
    (∀ c, r.queue.queueHead.1 = some c → c ∈ r.queue.db.order ∧
      ∀ (k : FtsQueueKey) (tokens : DirtyTokens), r.queue.db.entries[k]? = some tokens →
        c.token ≤ tokens.oldest) ∧
    (r.queue.queueHead.1 = none → ∀ k : FtsQueueKey, r.queue.db.entries[k]? = none) ∧
    (∀ i : QueueStep, i.isAcknowledgement = true → ∀ (k : FtsQueueKey) (tokens : DirtyTokens),
      r.queue.db.entries[k]? = some tokens → (i.apply r).queue.db.entries[k]? = none →
        ∃ t, i.Covers k t ∧ ∀ token, (k, token) ∈ r.enqueued → token ≤ t) := by
  have hinv := queueInv_reachable h
  -- an entry has its row, so what holds of all rows holds of all entries
  have hrow : ∀ (k : FtsQueueKey) (tokens : DirtyTokens), r.queue.db.entries[k]? = some tokens →
      (⟨tokens.oldest, k⟩ : QueueCursor) ∈ r.queue.db.order :=
    fun k tokens hk => (hinv.sound.paired ⟨tokens.oldest, k⟩).mpr ⟨tokens, hk, rfl⟩
  refine ⟨hinv.sound.paired, hinv.above, ?_, ?_, ?_⟩
  · intro c hc
    obtain ⟨hmem, hfirst⟩ := hinv.queueHead_spec.1 c hc
    exact ⟨hmem, fun k tokens hk => hfirst _ (hrow k tokens hk)⟩
  · intro hnone k
    refine Option.eq_none_iff_forall_ne_some.mpr fun tokens hk => ?_
    exact hinv.queueHead_spec.2 hnone _ (hrow k tokens hk)
  · intro i hi k tokens hk hgone
    obtain ⟨t, hcovers, hle⟩ :=
      (acknowledges_of_isAcknowledgement hinv hi).removed k tokens hk hgone
    exact ⟨t, hcovers, fun token hmem => (hinv.sound.latest _ hmem tokens hk).trans hle⟩

def runQueue (steps : List QueueStep) : SearchRun :=
  steps.foldl (fun r i => i.apply r) ⟨SearchQueue.new, []⟩

theorem reachable_runQueue {allowed : QueueStep → Prop} {steps : List QueueStep}
    (h : ∀ i ∈ steps, allowed i) :
    Transition.Reachable queueSystem (fun _ i => allowed i) (runQueue steps) :=
  foldlRecOn (motive := Transition.Reachable queueSystem fun _ i => allowed i) steps _
    (.init rfl) fun _ hs i hi => .step i hs (h i hi) rfl

def sampleKey : FtsQueueKey := .subject 1 2

def sampleEnqueue : QueueStep := .commitDurable (PendingFts.empty.push sampleKey) true

/-- An entry that is enqueued again before its first enqueue is acknowledged stays. -/
theorem queue_keeps_work_redirtied :
    (runQueue [sampleEnqueue, sampleEnqueue,
      .acknowledgeFtsQueue [(1, 2, 1)] true]).queue.db.Paired ∧
    (runQueue [sampleEnqueue, sampleEnqueue,
      .acknowledgeFtsQueue [(1, 2, 1)] true]).queue.db.entries[sampleKey]? = some ⟨2, 2⟩ := by
  have hreach : Transition.Reachable queueSystem (fun _ i => i.Coherent)
      (runQueue [sampleEnqueue, sampleEnqueue, .acknowledgeFtsQueue [(1, 2, 1)] true]) := by
    have hone : Coherent (subjectAcks [(1, 2, 1)]) := by
      intro a ha b hb _
      rw [mem_singleton.mp ha, mem_singleton.mp hb]
    exact reachable_runQueue (forall_mem_cons.mpr ⟨trivial, forall_mem_cons.mpr ⟨trivial,
      forall_mem_singleton.mpr hone⟩⟩)
  exact ⟨(queue_keeps_work hreach).1, by decide +kernel⟩

/-- A call that acknowledges one entry up to two tokens leaves an order row without an entry at
it: both are settled against the committed entry, so the second does not remove the row that the
first has put. -/
theorem queue_stray_row : ∃ r, Transition.Reachable queueSystem Transition.anyStep r ∧
    ¬ r.queue.db.Paired := by
  refine ⟨runQueue [sampleEnqueue, sampleEnqueue, sampleEnqueue,
    .acknowledgeFtsQueue [(1, 2, 1), (1, 2, 2)] true],
    reachable_runQueue (fun _ _ => trivial), fun hpaired => ?_⟩
  obtain ⟨tokens, htokens, htoken⟩ := (hpaired ⟨2, sampleKey⟩).mp (by decide +kernel)
  have hentry : (runQueue [sampleEnqueue, sampleEnqueue, sampleEnqueue,
      .acknowledgeFtsQueue [(1, 2, 1), (1, 2, 2)] true]).queue.db.entries[sampleKey]? =
      some ⟨3, 3⟩ := by decide +kernel
  cases hentry.symm.trans htokens
  cases htoken

end Craqle
