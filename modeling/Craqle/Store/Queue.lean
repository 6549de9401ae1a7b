import Craqle.Index.Spaces

/-! # The search queue

Work for the full-text index is queued durably: an entry for each subject to index again, each
graph to index again and each graph to drop, with the oldest and the latest token of its
enqueues. A second keyspace orders the entries by their oldest token, and a floor in memory says
where the scan for the oldest one starts. Every writer holds the queue lock, reads the committed
rows and writes them in one batch, so a step here is one call; a batch that the database refuses
leaves the rows as they were, but not the counters in memory.

Retry records of failed entries and the coverage marks of the index are not modelled.
-/

namespace Craqle

open List Option Ordered
open Std (ExtTreeMap ExtTreeSet TransCmp TransOrd LawfulEqOrd)

/-- A durable queue key, minus the dirty token it is stamped with. -/
inductive FtsQueueKey
  | subject (graph subject : TermId)
  | reindex (graph : TermId)
  | delete (graph : TermId)
  deriving DecidableEq

namespace FtsQueueKey

def queueKindTag : FtsQueueKey → Nat
  | delete _ => 0
  | reindex _ => 1
  | subject _ _ => 2

def graph : FtsQueueKey → TermId
  | subject g _ | reindex g | delete g => g

/-- The subject's bytes of a row key, zero where there is none. -/
def subjectBytes : FtsQueueKey → TermId
  | subject _ s => s
  | reindex _ | delete _ => 0

def isSubjectOf (g : TermId) : FtsQueueKey → Bool
  | subject g' _ => g' == g
  | reindex _ | delete _ => false

end FtsQueueKey

instance : Ord FtsQueueKey where
  compare := compareLex (compareOn FtsQueueKey.queueKindTag)
    (compareLex (compareOn FtsQueueKey.graph) (compareOn FtsQueueKey.subjectBytes))

instance instTransOrdFtsQueueKey : TransOrd FtsQueueKey :=
  inferInstanceAs (TransCmp (compareLex (compareOn FtsQueueKey.queueKindTag)
    (compareLex (compareOn FtsQueueKey.graph) (compareOn FtsQueueKey.subjectBytes))))

instance instLawfulEqOrdFtsQueueKey : LawfulEqOrd FtsQueueKey where
  eq_of_compare {a b} h := by
    change (compare a.queueKindTag b.queueKindTag).then
      ((compare a.graph b.graph).then (compare a.subjectBytes b.subjectBytes)) = .eq at h
    rw [Ordering.then_eq_eq, Ordering.then_eq_eq, Std.compare_eq_iff_eq, Std.compare_eq_iff_eq,
      Std.compare_eq_iff_eq] at h
    cases a <;> cases b <;>
      simp_all [FtsQueueKey.queueKindTag, FtsQueueKey.graph, FtsQueueKey.subjectBytes]

/-- A row of the token order. -/
structure QueueCursor where
  token : Nat
  key : FtsQueueKey
  deriving DecidableEq

instance : Ord QueueCursor where
  compare := compareLex (compareOn QueueCursor.token) (compareOn QueueCursor.key)

instance instTransOrdQueueCursor : TransOrd QueueCursor :=
  inferInstanceAs (TransCmp (compareLex (compareOn QueueCursor.token) (compareOn QueueCursor.key)))

instance instLawfulEqOrdQueueCursor : LawfulEqOrd QueueCursor where
  eq_of_compare {a b} h := by
    change (compare a.token b.token).then (compare a.key b.key) = .eq at h
    rw [Ordering.then_eq_eq, Std.compare_eq_iff_eq, Std.compare_eq_iff_eq] at h
    cases a
    cases b
    simp_all

theorem QueueCursor.token_le_of_lt {a b : QueueCursor} (h : compare a b = .lt) :
    a.token ≤ b.token := by
  change (compare a.token b.token).then (compare a.key b.key) = .lt at h
  rcases Ordering.then_eq_lt.mp h with hlt | ⟨heq, _⟩
  · exact (Nat.compare_eq_lt.mp hlt).le
  · exact (Nat.compare_eq_eq.mp heq).le

/-- The oldest and the latest enqueue that an entry stands for. -/
structure DirtyTokens where
  oldest : Nat
  latest : Nat
  deriving DecidableEq

/-- The durable rows: the entries, their order, and the highest committed token. -/
structure QueueDb where
  entries : ExtTreeMap FtsQueueKey DirtyTokens
  order : ExtTreeSet QueueCursor
  head : Nat

namespace QueueDb

def retire (db : QueueDb) (entry : FtsQueueKey × DirtyTokens) : QueueDb :=
  { db with
    entries := db.entries.erase entry.1
    order := db.order.erase ⟨entry.2.oldest, entry.1⟩ }

/-- Write an entry and its order row, in place of the row of the tokens stored before. -/
def rewrite (db : QueueDb) (key : FtsQueueKey) (stored : Option DirtyTokens)
    (tokens : DirtyTokens) : QueueDb :=
  let order := match stored with
    | some old => db.order.erase ⟨old.oldest, key⟩
    | none => db.order
  { db with entries := db.entries.insert key tokens, order := order.insert ⟨tokens.oldest, key⟩ }

def entryAt (db : QueueDb) (key : FtsQueueKey) : List (FtsQueueKey × DirtyTokens) :=
  (db.entries[key]?).toList.map fun tokens => (key, tokens)

def subjectsOf (db : QueueDb) (graph : TermId) : List (FtsQueueKey × DirtyTokens) :=
  db.entries.toList.filter fun entry => entry.1.isSubjectOf graph

/-- The entries that a graph's deletion overtakes. -/
def overtakenBy (db : QueueDb) (graph : TermId) : List (FtsQueueKey × DirtyTokens) :=
  db.subjectsOf graph ++ db.entryAt (.reindex graph)

def keysOf (db : QueueDb) (graph : TermId) : List FtsQueueKey :=
  (db.subjectsOf graph).map Prod.fst ++ [.reindex graph, .delete graph]

end QueueDb

/-- The queue of an open store: its rows, and the counters in memory. -/
structure SearchQueue where
  db : QueueDb
  dirtyCounter : Nat
  dirtyCommitted : Nat
  queueFloor : Nat

/-! ## Enqueues -/

/-- Deduplicated keys, in the order of their enqueues. -/
structure PendingFts where
  order : List FtsQueueKey
  nodup : order.Nodup

namespace PendingFts

def empty : PendingFts := ⟨[], List.nodup_nil⟩

def push (pending : PendingFts) (key : FtsQueueKey) : PendingFts :=
  if h : key ∈ pending.order then pending
  else ⟨pending.order ++ [key], List.nodup_append.mpr
    ⟨pending.nodup, List.nodup_singleton key, fun a ha b hb => by
      rw [List.mem_singleton.mp hb]
      exact fun heq => h (heq ▸ ha)⟩⟩

end PendingFts

/-- A batch while it is staged: the counters, the rows it leaves, and the tokens it gave out. -/
structure Staging where
  counter : Nat
  floor : Nat
  batch : QueueDb
  stamped : List (FtsQueueKey × Nat)

/-- Give an entry the next token and merge it with the stored one. Fails when the tokens are
exhausted. The stored entry is read from the committed rows, not from the batch. -/
def stageFtsEntry (base : QueueDb) (w : Staging) (key : FtsQueueKey) : Option Staging :=
  if w.counter + 1 < 2 ^ 64 then
    let tokens : DirtyTokens := match base.entries[key]? with
      | some stored => ⟨min stored.oldest w.counter, max stored.latest w.counter⟩
      | none => ⟨w.counter, w.counter⟩
    some
      { counter := w.counter + 1
        floor := min w.floor tokens.oldest
        batch := w.batch.rewrite key base.entries[key]? tokens
        stamped := w.stamped ++ [(key, w.counter)] }
  else none

/-- A graph's deletion removes its older work from the queue. -/
def stageDeleteQueue (base batch : QueueDb) (graph : TermId) : QueueDb :=
  (base.overtakenBy graph).foldl QueueDb.retire batch

def stageKey (base : QueueDb) (w : Staging) (key : FtsQueueKey) : Option Staging :=
  match key with
  | .delete graph => stageFtsEntry base { w with batch := stageDeleteQueue base w.batch graph } key
  | .subject _ _ | .reindex _ => stageFtsEntry base w key

/-- Stage keys until one fails; what the failed call left in memory stays. -/
def stageKeys (base : QueueDb) (w : Staging) : List FtsQueueKey → Bool × Staging
  | [] => (true, w)
  | key :: keys =>
    match stageKey base w key with
    | some w' => stageKeys base w' keys
    | none => (false, w)

namespace SearchQueue

def stage (q : SearchQueue) (keys : List FtsQueueKey) : Bool × Staging :=
  stageKeys q.db ⟨q.dirtyCounter, q.queueFloor, q.db, []⟩ keys

def publish (q : SearchQueue) (staged : Bool × Staging) (token : Option Nat) (commits : Bool) :
    SearchQueue :=
  let memory := { q with dirtyCounter := staged.2.counter, queueFloor := staged.2.floor }
  if staged.1 && commits then
    { memory with
      db := { staged.2.batch with head := token.getD q.db.head }
      dirtyCommitted := token.elim q.dirtyCommitted (max q.dirtyCommitted) }
  else memory

def commitDurable (q : SearchQueue) (pending : PendingFts) (commits : Bool) : SearchQueue :=
  let staged := q.stage pending.order
  q.publish staged (staged.2.stamped.map Prod.snd).max? commits

def ensureReindex (q : SearchQueue) (graph : TermId) (commits : Bool) : SearchQueue :=
  match q.db.entries[FtsQueueKey.reindex graph]? with
  | some _ => q
  | none =>
    let staged := q.stage [.reindex graph]
    q.publish staged (staged.2.stamped.map Prod.snd).max? commits

/-- Queue a page of graphs for a rebuild of the whole index. -/
def queueSearchRebuild (q : SearchQueue) (graphs : List TermId) (commits : Bool) : SearchQueue :=
  let staged := q.stage (graphs.map .reindex)
  q.publish staged (some ((staged.2.stamped.map Prod.snd).foldl max q.dirtyCommitted)) commits

end SearchQueue

/-! ## Acknowledgements -/

/-- Acknowledge an entry up to a token: gone if that covers it, else narrowed to what came
later. -/
def settleFtsEntry (base : QueueDb) (w : Nat × QueueDb) (entry : FtsQueueKey × Nat) :
    Nat × QueueDb :=
  match base.entries[entry.1]? with
  | none => w
  | some stored =>
    if stored.latest ≤ entry.2 then (w.1, w.2.retire (entry.1, stored))
    else
      let narrowed : DirtyTokens := ⟨entry.2 + 1, stored.latest⟩
      (min w.1 narrowed.oldest, w.2.rewrite entry.1 (some stored) narrowed)

def subjectAcks (queued : List (TermId × TermId × Nat)) : List (FtsQueueKey × Nat) :=
  queued.map fun entry => (.subject entry.1 entry.2.1, entry.2.2)

def reindexAcks (queued : List (TermId × Nat)) : List (FtsQueueKey × Nat) :=
  queued.map fun entry => (.reindex entry.1, entry.2)

def deleteAcks (queued : List (TermId × Nat)) : List (FtsQueueKey × Nat) :=
  queued.map fun entry => (.delete entry.1, entry.2)

namespace SearchQueue

/-- Settle entries in one batch. -/
def settleAll (q : SearchQueue) (queued : List (FtsQueueKey × Nat)) (commits : Bool) :
    SearchQueue :=
  let settled := queued.foldl (settleFtsEntry q.db) (q.queueFloor, q.db)
  { q with queueFloor := settled.1, db := if commits then settled.2 else q.db }

def acknowledgeFtsQueue (q : SearchQueue) (queued : List (TermId × TermId × Nat)) :
    Bool → SearchQueue :=
  q.settleAll (subjectAcks queued)

def acknowledgeReindex (q : SearchQueue) (queued : List (TermId × Nat)) : Bool → SearchQueue :=
  q.settleAll (reindexAcks queued)

def acknowledgeDeletes (q : SearchQueue) (queued : List (TermId × Nat)) : Bool → SearchQueue :=
  q.settleAll (deleteAcks queued)

/-- Retire graph work only through the scan's pinned token. -/
def clearGraphQueue (q : SearchQueue) (graph : TermId) (upto : Nat) : Bool → SearchQueue :=
  q.settleAll ((q.db.keysOf graph).map fun key => (key, upto))

/-- Remove entries in one batch. -/
def retireAll (q : SearchQueue) (retired : List (FtsQueueKey × DirtyTokens)) (commits : Bool) :
    SearchQueue :=
  { q with db := if commits then retired.foldl QueueDb.retire q.db else q.db }

/-- Subjects dirtied past the token of a reindex are not covered by its scan. -/
def acknowledgeReindexed (q : SearchQueue) (queued : List (TermId × Nat)) : Bool → SearchQueue :=
  q.retireAll (queued.flatMap fun entry =>
    (q.db.subjectsOf entry.1).filter fun debt => debt.2.latest ≤ entry.2)

def acknowledgeDeleted (q : SearchQueue) (queued : List (TermId × Nat)) : Bool → SearchQueue :=
  q.retireAll (queued.flatMap fun entry =>
    (q.db.overtakenBy entry.1).filter fun debt => debt.2.latest ≤ entry.2)

def clearFtsQueue (q : SearchQueue) : Bool → SearchQueue :=
  q.retireAll q.db.entries.toList

/-- The first order row from the floor on, which then moves up to it. -/
def queueHead (q : SearchQueue) : Option QueueCursor × SearchQueue :=
  let head := q.db.order.toList.find? fun cursor => q.queueFloor ≤ cursor.token
  let next := head.elim q.dirtyCounter QueueCursor.token
  (head, { q with queueFloor := max q.queueFloor next })

/-- Open the store again: the counters come from the committed head. -/
def reopen (q : SearchQueue) : SearchQueue :=
  { q with
    dirtyCounter := min (q.db.head + 1) (2 ^ 64 - 1)
    dirtyCommitted := q.db.head
    queueFloor := 0 }

end SearchQueue

/-! ## Rows of a batch

A batch is staged against the rows committed before it. What keeps entries and order rows in step
is where the batch's order rows can stand: at the oldest token of the committed entry, or where
the batch itself has put them. -/

namespace QueueDb

/-- Order rows and entries correspond, each row at its entry's oldest token. -/
def Paired (db : QueueDb) : Prop :=
  ∀ c : QueueCursor, c ∈ db.order ↔ ∃ tokens, db.entries[c.key]? = some tokens ∧
    c.token = tokens.oldest

theorem entries_retire (db : QueueDb) (key k : FtsQueueKey) (tokens : DirtyTokens) :
    (db.retire (key, tokens)).entries[k]? = if key = k then none else db.entries[k]? :=
  getElem?_erase _ _ _

theorem mem_order_retire (db : QueueDb) (key : FtsQueueKey) (tokens : DirtyTokens)
    (c : QueueCursor) :
    c ∈ (db.retire (key, tokens)).order ↔ c ≠ ⟨tokens.oldest, key⟩ ∧ c ∈ db.order :=
  mem_erase _ _ _

theorem entries_rewrite (db : QueueDb) (key k : FtsQueueKey) (stored : Option DirtyTokens)
    (tokens : DirtyTokens) :
    (db.rewrite key stored tokens).entries[k]? = if key = k then some tokens else db.entries[k]? :=
  getElem?_insert _ _ _ _

theorem mem_order_rewrite (db : QueueDb) (key : FtsQueueKey) (stored : Option DirtyTokens)
    (tokens : DirtyTokens) (c : QueueCursor) :
    c ∈ (db.rewrite key stored tokens).order ↔ c = ⟨tokens.oldest, key⟩ ∨
      ((∀ old ∈ stored, c ≠ ⟨old.oldest, key⟩) ∧ c ∈ db.order) := by
  unfold rewrite
  rw [mem_insert]
  cases stored with
  | none => simp
  | some old => rw [mem_erase]; simp

structure Working (base batch : QueueDb) (extra : FtsQueueKey → Nat → Prop) : Prop where
  paired : batch.Paired
  rows : ∀ c ∈ batch.order,
    (∃ stored, base.entries[c.key]? = some stored ∧ c.token = stored.oldest) ∨ extra c.key c.token

variable {base batch : QueueDb} {extra extra' : FtsQueueKey → Nat → Prop} {key : FtsQueueKey}
  {stored tokens : DirtyTokens}

theorem Working.start (h : base.Paired) : Working base base extra :=
  ⟨h, fun c hc => .inl ((h c).mp hc)⟩

/-- Retiring a committed entry, when the batch has moved no row of it. -/
theorem Working.retire (h : Working base batch extra) (hstored : base.entries[key]? = some stored)
    (hextra : ∀ token, ¬ extra key token) : Working base (batch.retire (key, stored)) extra where
  paired c := by
    rw [mem_order_retire, entries_retire]
    by_cases hkey : key = c.key
    · -- the only row the key can have is the one that goes
      subst hkey
      rw [if_pos rfl]
      refine iff_of_false (fun hc => ?_) (by simp)
      obtain ⟨s, hs, htoken⟩ := (h.rows c hc.2).resolve_right (hextra _)
      cases hstored.symm.trans hs
      exact hc.1 (by cases c; simp_all)
    · rw [if_neg hkey, ← h.paired c]
      exact and_iff_right fun heq => hkey (congrArg QueueCursor.key heq).symm
  rows c hc := h.rows c ((mem_order_retire _ _ _ _).mp hc).2

/-- Writing an entry, when all rows of it that the batch has moved stand at the new place. -/
theorem Working.rewrite (h : Working base batch extra)
    (hextra : ∀ token, extra key token → token = tokens.oldest)
    (hmono : ∀ k token, extra k token → extra' k token)
    (hplace : (∃ stored, base.entries[key]? = some stored ∧ tokens.oldest = stored.oldest) ∨
      extra' key tokens.oldest) :
    Working base (batch.rewrite key base.entries[key]? tokens) extra' where
  paired c := by
    rw [mem_order_rewrite, entries_rewrite]
    by_cases hkey : key = c.key
    · subst hkey
      rw [if_pos rfl]
      have hself : c = ⟨tokens.oldest, c.key⟩ ↔ c.token = tokens.oldest := by
        cases c
        simp
      constructor
      · rintro (heq | ⟨hne, hc⟩)
        · exact ⟨tokens, rfl, hself.mp heq⟩
        · obtain ⟨s, hs, htoken⟩ | hmoved := h.rows c hc
          · exact absurd (by cases c; simp_all) (hne s hs)
          · exact ⟨tokens, rfl, hextra _ hmoved⟩
      · rintro ⟨t, ht, htoken⟩
        cases ht
        exact .inl (hself.mpr htoken)
    · rw [if_neg hkey, ← h.paired c]
      have hother : ∀ token, c ≠ ⟨token, key⟩ := fun token heq =>
        hkey (congrArg QueueCursor.key heq).symm
      constructor
      · rintro (heq | ⟨_, hc⟩)
        · exact absurd heq (hother _)
        · exact hc
      · exact fun hc => .inr ⟨fun old _ => hother _, hc⟩
  rows c hc := by
    rcases (mem_order_rewrite _ _ _ _ _).mp hc with rfl | ⟨_, hc⟩
    · exact hplace
    · exact (h.rows c hc).imp_right (hmono _ _)

def Above (db : QueueDb) (floor : Nat) : Prop :=
  ∀ c ∈ db.order, floor ≤ c.token

theorem Above.retire {floor : Nat} (h : batch.Above floor) (entry : FtsQueueKey × DirtyTokens) :
    (batch.retire entry).Above floor :=
  fun c hc => h c ((mem_order_retire _ _ _ _).mp hc).2

theorem Above.rewrite {floor : Nat} (h : batch.Above floor) (key : FtsQueueKey)
    (stored : Option DirtyTokens) (tokens : DirtyTokens) :
    (batch.rewrite key stored tokens).Above (min floor tokens.oldest) := by
  intro c hc
  rcases (mem_order_rewrite _ _ _ _ _).mp hc with rfl | ⟨_, hc⟩
  · exact Nat.min_le_right _ _
  · exact (Nat.min_le_left _ _).trans (h c hc)

structure Acknowledges (base batch : QueueDb) (covers : FtsQueueKey → Nat → Prop) : Prop where
  head : batch.head = base.head
  kept : ∀ (k : FtsQueueKey) (tokens : DirtyTokens), batch.entries[k]? = some tokens →
    ∃ stored : DirtyTokens, base.entries[k]? = some stored ∧ tokens.latest = stored.latest ∧
      tokens.oldest ≤ tokens.latest
  removed : ∀ (k : FtsQueueKey) (stored : DirtyTokens), base.entries[k]? = some stored →
    batch.entries[k]? = none → ∃ token, covers k token ∧ stored.latest ≤ token

variable {covers : FtsQueueKey → Nat → Prop}

section

variable (h : Acknowledges base batch covers) (hstored : base.entries[key]? = some stored)
include h hstored

theorem Acknowledges.retire {token : Nat} (hcovers : covers key token)
    (hle : stored.latest ≤ token) : Acknowledges base (batch.retire (key, stored)) covers where
  head := h.head
  kept k tokens hk := by
    rw [entries_retire] at hk
    split at hk
    · cases hk
    · exact h.kept k tokens hk
  removed k s hs hnone := by
    by_cases hkey : key = k
    · subst hkey
      cases hstored.symm.trans hs
      exact ⟨token, hcovers, hle⟩
    · rw [entries_retire, if_neg hkey] at hnone
      exact h.removed k s hs hnone

theorem Acknowledges.narrow {token : Nat} (hlt : token < stored.latest) :
    Acknowledges base (batch.rewrite key base.entries[key]? ⟨token + 1, stored.latest⟩) covers where
  head := h.head
  kept k tokens hk := by
    rw [entries_rewrite] at hk
    split at hk
    · rename_i hkey
      cases hk
      exact ⟨stored, hkey ▸ hstored, rfl, hlt⟩
    · exact h.kept k tokens hk
  removed k s hs hnone := by
    rw [entries_rewrite] at hnone
    split at hnone
    · cases hnone
    · exact h.removed k s hs hnone

end

variable {entry : FtsQueueKey × DirtyTokens} {db : QueueDb} {graph : TermId}

theorem mem_subjectsOf :
    entry ∈ db.subjectsOf graph ↔
      db.entries[entry.1]? = some entry.2 ∧ entry.1.isSubjectOf graph = true := by
  rw [subjectsOf, mem_filter, ExtTreeMap.mem_toList_iff_getElem?_eq_some]

theorem mem_entryAt {key : FtsQueueKey} :
    entry ∈ db.entryAt key ↔ entry.1 = key ∧ db.entries[key]? = some entry.2 := by
  obtain ⟨k, tokens⟩ := entry
  simp [entryAt, eq_comm, and_comm]

theorem mem_overtakenBy (h : entry ∈ db.overtakenBy graph) : db.entries[entry.1]? = some entry.2 ∧
      (entry.1.isSubjectOf graph = true ∨ entry.1 = .reindex graph) := by
  rcases mem_append.mp h with h | h
  · exact (mem_subjectsOf.mp h).imp_right .inl
  · obtain ⟨hkey, hstored⟩ := mem_entryAt.mp h
    refine ⟨?_, .inr hkey⟩
    rw [hkey]
    exact hstored

theorem graph_of_mem_keysOf {k : FtsQueueKey} (h : k ∈ db.keysOf graph) : k.graph = graph := by
  rcases mem_append.mp h with h | h
  · obtain ⟨entry, hentry, rfl⟩ := mem_map.mp h
    have hsubject := (mem_subjectsOf.mp hentry).2
    cases hkey : entry.1 with
    | subject g s =>
      rw [hkey] at hsubject
      exact beq_iff_eq.mp hsubject
    | reindex g | delete g => simp [hkey, FtsQueueKey.isSubjectOf] at hsubject
  · rcases mem_cons.mp h with rfl | h
    · rfl
    · rw [mem_singleton.mp h]
      rfl

end QueueDb

/-! ## Settling in one batch -/

/-- No entry is acknowledged up to two different tokens. -/
def Coherent (queued : List (FtsQueueKey × Nat)) : Prop :=
  ∀ a ∈ queued, ∀ b ∈ queued, a.1 = b.1 → a.2 = b.2

section Settle

variable {base : QueueDb} {queued : List (FtsQueueKey × Nat)} {floor : Nat}

/-- Where a settled entry's order row may have gone. -/
def narrowedTo (base : QueueDb) (queued : List (FtsQueueKey × Nat)) (k : FtsQueueKey) (t : Nat) :
    Prop :=
  ∃ covered, (k, covered) ∈ queued ∧ t = covered + 1 ∧
    ∀ stored ∈ base.entries[k]?, covered < DirtyTokens.latest stored

theorem settleFtsEntry_cases (base : QueueDb) (w : Nat × QueueDb) (entry : FtsQueueKey × Nat) :
    (base.entries[entry.1]? = none ∧ settleFtsEntry base w entry = w) ∨
    (∃ stored : DirtyTokens, base.entries[entry.1]? = some stored ∧ stored.latest ≤ entry.2 ∧
      settleFtsEntry base w entry = (w.1, w.2.retire (entry.1, stored))) ∨
    (∃ stored : DirtyTokens, base.entries[entry.1]? = some stored ∧ entry.2 < stored.latest ∧
      settleFtsEntry base w entry = (min w.1 (entry.2 + 1),
        w.2.rewrite entry.1 base.entries[entry.1]? ⟨entry.2 + 1, stored.latest⟩)) := by
  unfold settleFtsEntry
  cases base.entries[entry.1]? with
  | none => exact .inl ⟨rfl, rfl⟩
  | some stored =>
    by_cases hle : stored.latest ≤ entry.2
    · exact .inr (.inl ⟨stored, rfl, hle, if_pos hle⟩)
    · exact .inr (.inr ⟨stored, rfl, Nat.not_le.mp hle, if_neg hle⟩)

variable {entry : FtsQueueKey × Nat} {w : Nat × QueueDb}

theorem settleFtsEntry_working (hco : Coherent queued) (hmem : entry ∈ queued)
    (h : base.Working w.2 (narrowedTo base queued)) :
    base.Working (settleFtsEntry base w entry).2 (narrowedTo base queued) := by
  -- a row of the entry that this batch has moved stands where the entry's own token puts it
  have hmoved : ∀ token, narrowedTo base queued entry.1 token →
      token = entry.2 + 1 ∧ ∀ stored ∈ base.entries[entry.1]?, entry.2 < stored.latest := by
    rintro token ⟨covered, hcovered, rfl, hlt⟩
    obtain rfl : covered = entry.2 := hco _ hcovered _ hmem rfl
    exact ⟨rfl, hlt⟩
  rcases settleFtsEntry_cases base w entry with
    ⟨_, heq⟩ | ⟨stored, hstored, hle, heq⟩ | ⟨stored, hstored, hlt, heq⟩
  · rw [heq]
    exact h
  · rw [heq]
    refine h.retire hstored fun token htoken => ?_
    exact absurd ((hmoved token htoken).2 stored hstored) (Nat.not_lt.mpr hle)
  · rw [heq]
    refine h.rewrite (fun token htoken => (hmoved token htoken).1) (fun _ _ hk => hk) (.inr ?_)
    refine ⟨entry.2, hmem, rfl, fun s hs => ?_⟩
    cases hstored.symm.trans hs
    exact hlt

theorem settleFtsEntry_above (h : w.1 ≤ floor ∧ w.2.Above w.1) :
    (settleFtsEntry base w entry).1 ≤ floor ∧
      (settleFtsEntry base w entry).2.Above (settleFtsEntry base w entry).1 := by
  rcases settleFtsEntry_cases base w entry with
    ⟨_, heq⟩ | ⟨stored, _, _, heq⟩ | ⟨stored, _, _, heq⟩
  · rw [heq]
    exact h
  · rw [heq]
    exact ⟨h.1, h.2.retire _⟩
  · rw [heq]
    exact ⟨(Nat.min_le_left _ _).trans h.1, h.2.rewrite _ _ _⟩

theorem settleFtsEntry_acknowledges
    (hmem : entry ∈ queued) (h : base.Acknowledges w.2 fun k t => (k, t) ∈ queued) :
    base.Acknowledges (settleFtsEntry base w entry).2 fun k t => (k, t) ∈ queued := by
  rcases settleFtsEntry_cases base w entry with
    ⟨_, heq⟩ | ⟨stored, hstored, hle, heq⟩ | ⟨stored, hstored, hlt, heq⟩
  · rw [heq]
    exact h
  · rw [heq]
    exact h.retire hstored hmem hle
  · rw [heq]
    exact h.narrow hstored hlt

end Settle

/-! ## Staging enqueues -/

/-- Committed rows against the history of enqueues: an entry reaches every enqueue of its key. -/
structure QueueDb.Sound (db : QueueDb) (enqueued : List (FtsQueueKey × Nat)) : Prop where
  paired : db.Paired
  within : ∀ (k : FtsQueueKey) (tokens : DirtyTokens), db.entries[k]? = some tokens →
    tokens.oldest ≤ tokens.latest ∧ tokens.latest ≤ db.head
  stamped : ∀ p ∈ enqueued, p.2 ≤ db.head
  latest : ∀ p ∈ enqueued, ∀ tokens : DirtyTokens, db.entries[p.1]? = some tokens →
    p.2 ≤ tokens.latest

structure Staged (q : SearchQueue) (enqueued : List (FtsQueueKey × Nat)) (w : Staging) : Prop where
  working : q.db.Working w.batch fun k t => q.db.entries[k]? = none ∧ (k, t) ∈ w.stamped
  above : w.batch.Above w.floor
  within : ∀ (k : FtsQueueKey) (tokens : DirtyTokens), w.batch.entries[k]? = some tokens →
    tokens.oldest ≤ tokens.latest ∧
      (tokens.latest ≤ q.db.head ∨ ∃ p ∈ w.stamped, tokens.latest = p.2)
  latest : ∀ p ∈ enqueued ++ w.stamped, ∀ tokens : DirtyTokens,
    w.batch.entries[p.1]? = some tokens → p.2 ≤ tokens.latest
  stamped : ∀ p ∈ w.stamped, q.dirtyCounter ≤ p.2 ∧ p.2 < w.counter
  counter : q.dirtyCounter ≤ w.counter ∧ w.counter < 2 ^ 64
  floor : w.floor ≤ q.queueFloor

section Stage

variable {q : SearchQueue} {enqueued : List (FtsQueueKey × Nat)} {w w' : Staging}
  {key : FtsQueueKey}

theorem stageFtsEntry_eq_some (hsound : q.db.Sound enqueued) (hhead : q.db.head < q.dirtyCounter)
    (hcounter : q.dirtyCounter ≤ w.counter) (h : stageFtsEntry q.db w key = some w') :
    w.counter + 1 < 2 ^ 64 ∧ ∃ tokens : DirtyTokens,
      w' = ⟨w.counter + 1, min w.floor tokens.oldest,
        w.batch.rewrite key q.db.entries[key]? tokens, w.stamped ++ [(key, w.counter)]⟩ ∧
      tokens.latest = w.counter ∧ tokens.oldest ≤ w.counter ∧
      ((q.db.entries[key]? = none ∧ tokens.oldest = w.counter) ∨
        ∃ stored : DirtyTokens, q.db.entries[key]? = some stored ∧
          tokens.oldest = stored.oldest) := by
  unfold stageFtsEntry at h
  split at h
  · rename_i hlimit
    refine ⟨hlimit, _, (some.inj h).symm, ?_⟩
    cases hstored : q.db.entries[key]? with
    | none => exact ⟨rfl, le_rfl, .inl ⟨rfl, rfl⟩⟩
    | some stored =>
      have hwithin := hsound.within key stored hstored
      have holdest : min stored.oldest w.counter = stored.oldest := by omega
      refine ⟨?_, Nat.min_le_right _ _, .inr ⟨stored, rfl, holdest⟩⟩
      show max stored.latest w.counter = w.counter
      omega
  · cases h

theorem Staged.stageFtsEntry (hsound : q.db.Sound enqueued) (hhead : q.db.head < q.dirtyCounter)
    (h : Staged q enqueued w) (hnew : ∀ p ∈ w.stamped, p.1 ≠ key)
    (hstage : stageFtsEntry q.db w key = some w') : Staged q enqueued w' := by
  obtain ⟨hlimit, tokens, rfl, hlatest, holdest, hplace⟩ :=
    stageFtsEntry_eq_some hsound hhead h.counter.1 hstage
  have hcounter := h.counter
  refine ⟨?_, ?_, ?_, ?_, ?_, ?_, ?_⟩
  · refine h.working.rewrite ?_ ?_ ?_
    · -- the batch holds no row of a key it has not stamped
      rintro token ⟨_, hmem⟩
      exact absurd rfl (hnew _ hmem)
    · exact fun k t hk => ⟨hk.1, mem_append_left _ hk.2⟩
    · rcases hplace with ⟨hnone, htoken⟩ | hplace
      · exact .inr ⟨hnone, by rw [htoken]; exact mem_concat_self⟩
      · exact .inl hplace
  · exact h.above.rewrite _ _ _
  · intro k t hk
    rw [QueueDb.entries_rewrite] at hk
    split at hk
    · cases hk
      exact ⟨by omega, .inr ⟨(key, w.counter), mem_concat_self, hlatest⟩⟩
    · refine (h.within k t hk).imp_right (Or.imp_right ?_)
      exact fun ⟨p, hp, heq⟩ => ⟨p, mem_append_left _ hp, heq⟩
  · intro p hp t ht
    rw [← append_assoc] at hp
    have hpast : ∀ p ∈ enqueued ++ w.stamped, p.2 ≤ w.counter := by
      intro p hp
      rcases mem_append.mp hp with hp | hp
      · have := hsound.stamped p hp
        omega
      · exact (h.stamped p hp).2.le
    rw [QueueDb.entries_rewrite] at ht
    rcases mem_append.mp hp with hp | hp
    · split at ht
      · cases ht
        rw [hlatest]
        exact hpast p hp
      · exact h.latest p hp t ht
    · obtain rfl : p = (key, w.counter) := mem_singleton.mp hp
      rw [if_pos rfl] at ht
      cases ht
      exact hlatest.ge
  · intro p hp
    show q.dirtyCounter ≤ p.2 ∧ p.2 < w.counter + 1
    rcases mem_append.mp hp with hp | hp
    · have := h.stamped p hp
      omega
    · obtain rfl : p = (key, w.counter) := mem_singleton.mp hp
      exact ⟨hcounter.1, Nat.lt_succ_self _⟩
  · exact ⟨hcounter.1.trans (Nat.le_succ _), hlimit⟩
  · exact (Nat.min_le_left _ _).trans h.floor

theorem Staged.retire {tokens : DirtyTokens} (h : Staged q enqueued w)
    (hstored : q.db.entries[key]? = some tokens) :
    Staged q enqueued { w with batch := w.batch.retire (key, tokens) } := by
  have hkept : ∀ (k : FtsQueueKey) (t : DirtyTokens),
      (w.batch.retire (key, tokens)).entries[k]? = some t → w.batch.entries[k]? = some t := by
    intro k t hk
    rw [QueueDb.entries_retire] at hk
    split at hk
    · cases hk
    · exact hk
  refine ⟨?_, h.above.retire _, ?_, ?_, h.stamped, h.counter, h.floor⟩
  · exact h.working.retire hstored fun token hextra => by simp [hstored] at hextra
  · exact fun k t hk => h.within k t (hkept k t hk)
  · exact fun p hp t ht => h.latest p hp t (hkept p.1 t ht)

theorem Staged.stageDeleteQueue (h : Staged q enqueued w) (graph : TermId) :
    Staged q enqueued { w with batch := stageDeleteQueue q.db w.batch graph } := by
  unfold Craqle.stageDeleteQueue
  refine foldlRecOn (motive := fun batch => Staged q enqueued { w with batch := batch })
    _ _ h fun batch hbatch entry hentry => ?_
  exact hbatch.retire (QueueDb.mem_overtakenBy hentry).1

theorem stageKey_eq_some (h : stageKey q.db w key = some w') :
    ∃ batch, stageFtsEntry q.db { w with batch := batch } key = some w' ∧
      (Staged q enqueued w → Staged q enqueued { w with batch := batch }) := by
  cases key with
  | subject g s | reindex g => exact ⟨w.batch, h, id⟩
  | delete g => exact ⟨stageDeleteQueue q.db w.batch g, h, fun hw => hw.stageDeleteQueue g⟩

/-- Staging distinct keys, whether or not the tokens last. -/
theorem Staged.stageKeys (hsound : q.db.Sound enqueued) (hhead : q.db.head < q.dirtyCounter)
    {keys : List FtsQueueKey} (hnodup : keys.Nodup) (h : Staged q enqueued w)
    (hnew : ∀ p ∈ w.stamped, p.1 ∉ keys) : Staged q enqueued (stageKeys q.db w keys).2 := by
  induction keys generalizing w with
  | nil => exact h
  | cons key keys ih =>
    obtain ⟨hkey, hnodup⟩ := nodup_cons.mp hnodup
    unfold Craqle.stageKeys
    cases hstage : stageKey q.db w key with
    | none => exact h
    | some w' =>
      obtain ⟨batch, hentry, hkeeps⟩ := @stageKey_eq_some q enqueued w w' key hstage
      obtain ⟨_, tokens, hw', _⟩ :=
        stageFtsEntry_eq_some hsound hhead (hkeeps h).counter.1 hentry
      refine ih hnodup ?_ ?_
      · refine (hkeeps h).stageFtsEntry hsound hhead (fun p hp heq => ?_) hentry
        exact hnew p hp (heq ▸ mem_cons_self)
      intro p hp hmem
      rw [hw'] at hp
      rcases mem_append.mp hp with hp | hp
      · exact hnew p hp (mem_cons_of_mem _ hmem)
      · rw [mem_singleton.mp hp] at hmem
        exact hkey hmem

end Stage

end Craqle
