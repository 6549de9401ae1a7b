import Craqle.Index.Source
import Craqle.Lib.Epochs
import Craqle.Lib.Transition
import Craqle.Core.Term

/-! # The subject caches

`subject_entries` and `ordered_objects` answer from two bounded caches or from the stored rows. A key
of a cache carries the epoch of the graph's shard. A commit first makes its rows durable, then bumps
the epochs of the graphs that it has changed, and then returns. Readers take no lock across their
steps, and evictions happen at any time.

Every answer is that of the rows after some number of commits, and all commits that had returned when
the call started are among them (`ReaderOk`). The counters have 64 bits; the invariant is about runs
in which none of them wraps around.
-/

namespace Craqle

open Epochs Transition Function List QuadMutation

/-! ## Rows -/

/-- The order of the keys of stored rows. -/
def keyLe (a b : EncodedQuad) : Prop := a.terms ≤ b.terms

instance : DecidableRel keyLe := fun a b => inferInstanceAs (Decidable (a.terms ≤ b.terms))

def writeRow (rows : List EncodedQuad) : QuadMutation → List EncodedQuad
  | .insert quad => if quad ∈ rows then rows else rows.orderedInsert keyLe quad
  | .remove quad => rows.filter (· ≠ quad)

def rowsAfter (opened : List EncodedQuad) (batches : List (List QuadMutation)) : List EncodedQuad :=
  batches.flatten.foldl writeRow opened

/-- The rows of a subject: a scan of their common key range. -/
def subjectRows (rows : List EncodedQuad) (graph subject : TermId) : List (TermId × TermId) :=
  (rows.filter fun q => q.graph = graph ∧ q.subject = subject).map fun q => (q.predicate, q.object)

def orderedBy (decode : TermId → Text) (entries : List (TermId × TermId)) (predicate : TermId) :
    List TermId :=
  ((entries.filter fun entry => entry.1 = predicate).map Prod.snd).mergeSort
    fun a b => decode a ≤ decode b

/-- The state that mutations leave a quad in, if they change it. -/
def lastMutation (mutations : List QuadMutation) (quad : EncodedQuad) : Option Bool :=
  (mutations.reverse.find? fun m => m.change.1 = quad).map fun m => m.change.2

variable {q : EncodedQuad} {rows : List EncodedQuad}

theorem mem_writeRow {m : QuadMutation} :
    q ∈ writeRow rows m ↔ if m.change.1 = q then m.change.2 = true else q ∈ rows := by
  cases m with
  | insert quad =>
    simp only [writeRow, change]
    by_cases hq : quad = q
    · subst hq
      rw [if_pos rfl]
      split
      · next hmem => simp [hmem]
      · simp
    · rw [if_neg hq]
      split
      · rfl
      · rw [mem_orderedInsert]
        exact ⟨fun h => h.resolve_left (Ne.symm hq), .inr⟩
  | remove quad =>
    simp only [writeRow, change, mem_filter, decide_eq_true_eq]
    by_cases hq : quad = q
    · subst hq
      simp
    · have hne : q ≠ quad := Ne.symm hq
      simp [hq, hne]

theorem lastMutation_append (ms ms' : List QuadMutation) (q : EncodedQuad) :
    lastMutation (ms ++ ms') q = (lastMutation ms' q).or (lastMutation ms q) := by
  rw [lastMutation, lastMutation, lastMutation, reverse_append, find?_append, Option.map_or]

theorem mem_foldl_writeRow {ms : List QuadMutation} :
    q ∈ ms.foldl writeRow rows ↔ (lastMutation ms q).elim (q ∈ rows) (· = true) := by
  induction ms using reverseRecOn with
  | nil => rfl
  | append_singleton ms m ih =>
    rw [foldl_concat, mem_writeRow, lastMutation_append]
    by_cases hq : m.change.1 = q
    · have hlast : lastMutation [m] q = some m.change.2 := by simp [lastMutation, hq]
      rw [if_pos hq, hlast]
      rfl
    · have hlast : lastMutation [m] q = none := by simp [lastMutation, hq]
      rw [if_neg hq, hlast, ih]
      rfl

theorem lastMutation_flatten_eq_none {batches : List (List QuadMutation)}
    (h : ∀ batch ∈ batches, lastMutation batch q = none) : lastMutation batches.flatten q = none := by
  induction batches with
  | nil => rfl
  | cons batch batches ih =>
    obtain ⟨hbatch, hbatches⟩ := forall_mem_cons.mp h
    rw [flatten_cons, lastMutation_append, ih hbatches, hbatch]
    rfl

/-- A quad that no commit after the `k`-th has changed is as that commit left it. -/
theorem mem_rowsAfter {opened : List EncodedQuad} {history : List (List QuadMutation)} {k n : Nat}
    {batch : List QuadMutation} {live : Bool} (hn : k < n)
    (hbatch : history[k]? = some batch) (hlive : lastMutation batch q = some live)
    (hlater : ∀ j later, k < j → history[j]? = some later → lastMutation later q = none) :
    q ∈ rowsAfter opened (history.take n) ↔ live = true := by
  have hsplit : history.take n = history.take k ++ batch :: (history.take n).drop (k + 1) := by
    have hget : (history.take n)[k]? = some batch := by rw [List.getElem?_take_of_lt hn, hbatch]
    obtain ⟨hlt, hget⟩ := List.getElem?_eq_some_iff.mp hget
    conv_lhs => rw [← List.take_append_drop k (history.take n)]
    rw [take_take, Nat.min_eq_left hn.le, drop_eq_getElem_cons hlt, hget]
  have hrest : lastMutation ((history.take n).drop (k + 1)).flatten q = none := by
    refine lastMutation_flatten_eq_none fun later hmem => ?_
    obtain ⟨j, hj⟩ := mem_iff_getElem?.mp hmem
    rw [getElem?_drop, getElem?_take] at hj
    split at hj
    · exact hlater (k + 1 + j) later (by omega) hj
    · exact absurd hj (by simp)
  rw [rowsAfter, mem_foldl_writeRow, hsplit, flatten_append, flatten_cons,
    lastMutation_append, lastMutation_append, hrest, hlive]
  rfl

/-! ## Readers -/

def shardOf (graph : TermId) : Nat := graph.toNat % 2 ^ 64 % 256

/-- The shards that the publication of a commit bumps, one entry for every changed graph. -/
def shardsOf (mutations : List QuadMutation) : List Nat :=
  (mutations.map fun m => m.change.1.graph).dedup.map shardOf

inductive ReadCall where
  | subjectEntries (graph subject : TermId) (excluded : Option TermId)
  | orderedObjects (graph subject predicate : TermId)

inductive ReadAnswer where
  | entries (found : List (TermId × TermId))
  | objects (found : List TermId)
  deriving DecidableEq

namespace ReadCall

def graph : ReadCall → TermId
  | .subjectEntries graph _ _ | .orderedObjects graph _ _ => graph

def subject : ReadCall → TermId
  | .subjectEntries _ subject _ | .orderedObjects _ subject _ => subject

def answer (decode : TermId → Text) (entries : List (TermId × TermId)) : ReadCall → ReadAnswer
  | .subjectEntries _ _ excluded => .entries (entries.filter fun entry => some entry.1 ≠ excluded)
  | .orderedObjects _ _ predicate => .objects (orderedBy decode entries predicate)

/-- A call asks for the quad. -/
def Covers (quad : EncodedQuad) : ReadCall → Prop
  | .subjectEntries graph subject excluded =>
    quad.graph = graph ∧ quad.subject = subject ∧ some quad.predicate ≠ excluded
  | .orderedObjects graph subject predicate =>
    quad.graph = graph ∧ quad.subject = subject ∧ quad.predicate = predicate

end ReadCall

def ReadAnswer.Sees (quad : EncodedQuad) : ReadAnswer → Prop
  | .entries found => (quad.predicate, quad.object) ∈ found
  | .objects found => quad.object ∈ found

theorem mem_subjectRows :
    (q.predicate, q.object) ∈ subjectRows rows q.graph q.subject ↔ q ∈ rows := by
  simp only [subjectRows, mem_map, mem_filter, decide_eq_true_eq, Prod.mk.injEq]
  constructor
  · rintro ⟨q', ⟨hmem, hgraph, hsubject⟩, hpredicate, hobject⟩
    have heq : q' = q := Quad.ext hgraph hsubject hpredicate hobject
    exact heq ▸ hmem
  · exact fun hmem => ⟨q, ⟨hmem, rfl, rfl⟩, rfl, rfl⟩

theorem sees_answer {decode : TermId → Text} {call : ReadCall} (hcall : call.Covers q) :
    (call.answer decode (subjectRows rows call.graph call.subject)).Sees q ↔ q ∈ rows := by
  cases call with
  | subjectEntries graph subject excluded =>
    obtain ⟨rfl, rfl, hexcluded⟩ := hcall
    simp only [ReadCall.answer, ReadAnswer.Sees, ReadCall.graph, ReadCall.subject,
      mem_filter, mem_subjectRows, decide_eq_true_eq]
    exact and_iff_left hexcluded
  | orderedObjects graph subject predicate =>
    obtain ⟨rfl, rfl, rfl⟩ := hcall
    simp only [ReadCall.answer, ReadAnswer.Sees, ReadCall.graph, ReadCall.subject, orderedBy,
      mem_mergeSort, mem_map, mem_filter, decide_eq_true_eq]
    rw [← mem_subjectRows]
    constructor
    · rintro ⟨⟨predicate, object⟩, ⟨hmem, rfl⟩, rfl⟩
      exact hmem
    · exact fun hmem => ⟨_, ⟨hmem, rfl⟩, rfl⟩

/-- Where a call is. `ordered_objects` carries the epoch under which it will install its order
through its call of `subject_entries`; for a call of `subject_entries` itself that number is not
used. -/
inductive ReadProgress where
  | begun
  | orderMissed (outer : Nat)
  | epochRead (outer generation : Nat)
  | subjectMissed (outer generation : Nat)
  | scanned (outer generation : Nat) (entries : List (TermId × TermId))
  | entriesRead (outer : Nat) (entries : List (TermId × TermId))
  | done (answer : ReadAnswer)
  deriving DecidableEq

/-- A call with the commits that had returned when it started. -/
structure Reader where
  call : ReadCall
  since : List Nat
  progress : ReadProgress

structure ReadCaches where
  subjects : TermId × TermId × Nat → Option (List (TermId × TermId))
  orders : (TermId × TermId × TermId) × Nat → Option (List TermId)

namespace ReadCaches

def installSubject (caches : ReadCaches) (key : TermId × TermId × Nat)
    (entries : List (TermId × TermId)) : ReadCaches :=
  { caches with subjects := Function.update caches.subjects key (some entries) }

def installOrder (caches : ReadCaches) (key : (TermId × TermId × TermId) × Nat)
    (objects : List TermId) : ReadCaches :=
  { caches with orders := Function.update caches.orders key (some objects) }

end ReadCaches

/-- The end of `subject_entries`: its caller goes on. -/
def finishEntries (decode : TermId → Text) (call : ReadCall) (outer : Nat)
    (entries : List (TermId × TermId)) : ReadProgress :=
  match call with
  | .subjectEntries _ _ _ => .done (call.answer decode entries)
  | .orderedObjects _ _ _ => .entriesRead outer entries

/-- The next step of a call, on the rows and the epoch of its graph. Between two steps no lock is
held. -/
def readNext (decode : TermId → Text) (rows : List EncodedQuad) (epoch : Nat) (caches : ReadCaches)
    (call : ReadCall) : ReadProgress → ReadCaches × ReadProgress
  | .begun =>
    match call with
    | .subjectEntries _ _ _ => (caches, .epochRead 0 epoch)
    | .orderedObjects graph subject predicate =>
      match caches.orders ((graph, subject, predicate), epoch) with
      | some objects => (caches, .done (.objects objects))
      | none => (caches, .orderMissed epoch)
  | .orderMissed outer => (caches, .epochRead outer epoch)
  | .epochRead outer generation =>
    match caches.subjects (call.graph, call.subject, generation) with
    | some entries => (caches, finishEntries decode call outer entries)
    | none => (caches, .subjectMissed outer generation)
  | .subjectMissed outer generation =>
    (caches, .scanned outer generation (subjectRows rows call.graph call.subject))
  | .scanned outer generation entries =>
    (if epoch = generation then caches.installSubject (call.graph, call.subject, generation) entries
    else caches, finishEntries decode call outer entries)
  | .entriesRead outer entries =>
    match call with
    | .subjectEntries _ _ _ => (caches, .entriesRead outer entries)
    | .orderedObjects graph subject predicate =>
      (if epoch = outer then caches.installOrder ((graph, subject, predicate), outer)
          (orderedBy decode entries predicate)
      else caches, .done (call.answer decode entries))
  | .done answer => (caches, .done answer)

/-! ## What caches and readers know -/

section Fresh

variable (decode : TermId → Text) (opened : List EncodedQuad)

abbrev CommitLog := Log (List QuadMutation)

def rowsAt (log : CommitLog) (n : Nat) : List EncodedQuad := rowsAfter opened (log.upTo n)

def Fresh (log : CommitLog) (stamp : Nat → Nat → Nat) (graph subject : TermId) (epoch : Nat)
    (entries : List (TermId × TermId)) : Prop :=
  ∃ n, Covers shardsOf log stamp (shardOf graph) epoch n ∧
    entries = subjectRows (rowsAt opened log n) graph subject

structure CachesOk (log : CommitLog) (stamp : Nat → Nat → Nat) (caches : ReadCaches) : Prop where
  subjects : ∀ graph subject epoch entries, caches.subjects (graph, subject, epoch) = some entries →
    Fresh opened log stamp graph subject epoch entries
  orders : ∀ graph subject predicate epoch objects,
    caches.orders ((graph, subject, predicate), epoch) = some objects →
      ∃ entries, Fresh opened log stamp graph subject epoch entries ∧
        objects = orderedBy decode entries predicate

/-- An epoch of a shard that is not before the commits that had returned when the call started. -/
structure Knows (log : CommitLog) (stamp : Nat → Nat → Nat) (since : List Nat)
    (shard epoch : Nat) : Prop where
  le_epoch : epoch ≤ log.epochs shard
  since : ∀ k ∈ since, log.Touches shardsOf k shard → stamp k shard ≤ epoch

/-- What a call has found out so far. -/
def ProgressOk (log : CommitLog) (stamp : Nat → Nat → Nat) (call : ReadCall) (since : List Nat) :
    ReadProgress → Prop
  | .begun => True
  | .orderMissed outer => Knows log stamp since (shardOf call.graph) outer
  | .epochRead outer generation | .subjectMissed outer generation =>
    outer ≤ generation ∧ Knows log stamp since (shardOf call.graph) generation
  | .scanned outer generation entries =>
    outer ≤ generation ∧ Knows log stamp since (shardOf call.graph) generation ∧
      Fresh opened log stamp call.graph call.subject generation entries
  | .entriesRead outer entries =>
    ∃ generation, outer ≤ generation ∧ Knows log stamp since (shardOf call.graph) generation ∧
      Fresh opened log stamp call.graph call.subject generation entries
  | .done answer =>
    ∃ n ≤ log.history.length,
      (∀ k ∈ since, log.Touches shardsOf k (shardOf call.graph) → k < n) ∧
      answer = call.answer decode (subjectRows (rowsAt opened log n) call.graph call.subject)

structure ReaderOk (log : CommitLog) (stamp : Nat → Nat → Nat) (r : Reader) : Prop where
  since : ∀ k ∈ r.since, k ∈ log.published
  progress : ProgressOk decode opened log stamp r.call r.since r.progress

variable {decode opened} {log log' : CommitLog} {stamp stamp' : Nat → Nat → Nat}
  {graph subject : TermId} {epoch : Nat} {entries : List (TermId × TermId)} {since : List Nat}
  {call : ReadCall} {caches : ReadCaches} {shard : Nat}

theorem rowsAt_continues (hext : Continues shardsOf log stamp log' stamp') {n : Nat}
    (hn : n ≤ log.history.length) : rowsAt opened log' n = rowsAt opened log n := by
  rw [rowsAt, hext.upTo n hn, rowsAt]

theorem Fresh.mono (h : Fresh opened log stamp graph subject epoch entries)
    (hext : Continues shardsOf log stamp log' stamp') :
    Fresh opened log' stamp' graph subject epoch entries := by
  obtain ⟨n, hcovers, rfl⟩ := h
  exact ⟨n, hcovers.mono hext, by rw [rowsAt_continues hext hcovers.le_length]⟩

theorem Fresh.scan (h : Stamped shardsOf log stamp) (hepoch : epoch ≤ log.epochs (shardOf graph)) :
    Fresh opened log stamp graph subject epoch
      (subjectRows (rowsAfter opened log.history) graph subject) := by
  refine ⟨log.history.length, ⟨Nat.le_refl _, hepoch, fun k hk _ _ => h.published_lt k hk⟩, ?_⟩
  rw [rowsAt, Log.upTo, take_length]

theorem Knows.mono (h : Knows log stamp since shard epoch) (hsince : ∀ k ∈ since, k ∈ log.published)
    (hext : Continues shardsOf log stamp log' stamp') : Knows log' stamp' since shard epoch where
  le_epoch := h.le_epoch.trans (hext.epoch_le shard)
  since k hk htouches := by
    rw [hext.stamp_eq k (hsince k hk)]
    exact h.since k hk (hext.touches k (hsince k hk) shard htouches)

theorem progressOk_done (hsince : ∀ k ∈ since, k ∈ log.published)
    (hknows : Knows log stamp since (shardOf call.graph) epoch)
    (hfresh : Fresh opened log stamp call.graph call.subject epoch entries) :
    ProgressOk decode opened log stamp call since (.done (call.answer decode entries)) := by
  obtain ⟨n, hcovers, rfl⟩ := hfresh
  refine ⟨n, hcovers.le_length, fun k hk htouches => ?_, rfl⟩
  exact hcovers.contains k (hsince k hk) htouches (hknows.since k hk htouches)

theorem CachesOk.mono (h : CachesOk decode opened log stamp caches)
    (hext : Continues shardsOf log stamp log' stamp') : CachesOk decode opened log' stamp' caches where
  subjects graph subject epoch entries hcached := (h.subjects _ _ _ _ hcached).mono hext
  orders graph subject predicate epoch objects hcached := by
    obtain ⟨entries, hfresh, hobjects⟩ := h.orders _ _ _ _ _ hcached
    exact ⟨entries, hfresh.mono hext, hobjects⟩

theorem ProgressOk.mono {progress : ReadProgress}
    (h : ProgressOk decode opened log stamp call since progress)
    (hsince : ∀ k ∈ since, k ∈ log.published) (hext : Continues shardsOf log stamp log' stamp') :
    ProgressOk decode opened log' stamp' call since progress := by
  cases progress with
  | begun => trivial
  | orderMissed outer => exact Knows.mono h hsince hext
  | epochRead outer generation | subjectMissed outer generation => exact ⟨h.1, h.2.mono hsince hext⟩
  | scanned outer generation entries =>
    obtain ⟨houter, hknows, hfresh⟩ := h
    exact ⟨houter, hknows.mono hsince hext, hfresh.mono hext⟩
  | entriesRead outer entries =>
    obtain ⟨generation, houter, hknows, hfresh⟩ := h
    exact ⟨generation, houter, hknows.mono hsince hext, hfresh.mono hext⟩
  | done answer =>
    obtain ⟨n, hn, hk, rfl⟩ := h
    refine ⟨n, hn.trans hext.length_le, fun k hkmem htouches => ?_, ?_⟩
    · exact hk k hkmem (hext.touches k (hsince k hkmem) _ htouches)
    · rw [rowsAt_continues hext hn]

/-! ## A step of a reader -/

theorem update_eq_some {κ α : Type} [DecidableEq κ] {f : κ → Option α} {key key' : κ} {a a' : α}
    (h : update f key (some a) key' = some a') :
    key' = key ∧ a' = a ∨ f key' = some a' := by
  by_cases hkey : key' = key
  · subst hkey
    rw [update_self] at h
    exact .inl ⟨rfl, (Option.some.inj h).symm⟩
  · rw [update_of_ne hkey] at h
    exact .inr h

section

variable (h : CachesOk decode opened log stamp caches)
  (hfresh : Fresh opened log stamp graph subject epoch entries)
include h hfresh

theorem CachesOk.installSubject :
    CachesOk decode opened log stamp (caches.installSubject (graph, subject, epoch) entries) where
  subjects graph' subject' epoch' entries' hcached := by
    rcases update_eq_some hcached with ⟨hkey, rfl⟩ | hcached
    · obtain ⟨rfl, rfl, rfl⟩ : graph' = graph ∧ subject' = subject ∧ epoch' = epoch := by
        simpa using hkey
      exact hfresh
    · exact h.subjects _ _ _ _ hcached
  orders := h.orders

theorem CachesOk.installOrder {predicate : TermId} :
    CachesOk decode opened log stamp (caches.installOrder ((graph, subject, predicate), epoch)
      (orderedBy decode entries predicate)) where
  subjects := h.subjects
  orders graph' subject' predicate' epoch' objects hcached := by
    rcases update_eq_some hcached with ⟨hkey, rfl⟩ | hcached
    · obtain ⟨⟨rfl, rfl, rfl⟩, rfl⟩ :
          (graph' = graph ∧ subject' = subject ∧ predicate' = predicate) ∧ epoch' = epoch := by
        simpa using hkey
      exact ⟨entries, hfresh, rfl⟩
    · exact h.orders _ _ _ _ _ hcached

end

theorem progressOk_finishEntries {outer : Nat} (hsince : ∀ k ∈ since, k ∈ log.published)
    (houter : outer ≤ epoch) (hknows : Knows log stamp since (shardOf call.graph) epoch)
    (hfresh : Fresh opened log stamp call.graph call.subject epoch entries) :
    ProgressOk decode opened log stamp call since (finishEntries decode call outer entries) := by
  cases call with
  | subjectEntries graph subject excluded => exact progressOk_done hsince hknows hfresh
  | orderedObjects graph subject predicate => exact ⟨epoch, houter, hknows, hfresh⟩

/-- **One step of a reader** keeps what the caches and the reader know. -/
theorem readNext_ok {progress : ReadProgress} (hstamped : Stamped shardsOf log stamp)
    (hcaches : CachesOk decode opened log stamp caches) (hsince : ∀ k ∈ since, k ∈ log.published)
    (h : ProgressOk decode opened log stamp call since progress) :
    CachesOk decode opened log stamp (readNext decode (rowsAfter opened log.history)
        (log.epochs (shardOf call.graph)) caches call progress).1 ∧
      ProgressOk decode opened log stamp call since (readNext decode (rowsAfter opened log.history)
        (log.epochs (shardOf call.graph)) caches call progress).2 := by
  -- the epoch of the moment is not before any publication
  have hnow : Knows log stamp since (shardOf call.graph) (log.epochs (shardOf call.graph)) :=
    ⟨le_rfl, fun k hk htouches => hstamped.le_epoch k (hsince k hk) _ htouches⟩
  cases progress with
  | begun =>
    cases call with
    | subjectEntries graph subject excluded => exact ⟨hcaches, Nat.zero_le _, hnow⟩
    | orderedObjects graph subject predicate =>
      simp only [readNext]
      split
      · next objects hcached =>
        obtain ⟨entries, hfresh, rfl⟩ := hcaches.orders _ _ _ _ _ hcached
        exact ⟨hcaches, progressOk_done hsince hnow hfresh⟩
      · exact ⟨hcaches, hnow⟩
  | orderMissed outer => exact ⟨hcaches, h.le_epoch, hnow⟩
  | epochRead outer generation =>
    obtain ⟨houter, hknows⟩ := h
    simp only [readNext]
    split
    · next entries hcached =>
      exact ⟨hcaches, progressOk_finishEntries hsince houter hknows
        (hcaches.subjects _ _ _ _ hcached)⟩
    · exact ⟨hcaches, houter, hknows⟩
  | subjectMissed outer generation =>
    obtain ⟨houter, hknows⟩ := h
    exact ⟨hcaches, houter, hknows, Fresh.scan hstamped hknows.le_epoch⟩
  | scanned outer generation entries =>
    obtain ⟨houter, hknows, hfresh⟩ := h
    refine ⟨?_, progressOk_finishEntries hsince houter hknows hfresh⟩
    simp only [readNext]
    split
    · exact hcaches.installSubject hfresh
    · exact hcaches
  | entriesRead outer entries =>
    cases call with
    | subjectEntries graph subject excluded => exact ⟨hcaches, h⟩
    | orderedObjects graph subject predicate =>
      obtain ⟨generation, houter, hknows, hfresh⟩ := h
      refine ⟨?_, progressOk_done hsince hknows hfresh⟩
      simp only [readNext]
      split
      · -- the entries cover the epoch of the inner call, which is not before the outer one
        obtain ⟨n, hcovers, rfl⟩ := hfresh
        exact hcaches.installOrder ⟨n, hcovers.anti houter, rfl⟩
      · exact hcaches
  | done answer => exact ⟨hcaches, h⟩

end Fresh

/-! ## The system -/

structure CacheState (ι : Type) where
  log : CommitLog
  caches : ReadCaches
  readers : ι → Option Reader

inductive CacheStep (ι : Type) where
  | write (mutations : List QuadMutation)
  | publish (k : Nat)
  | giveBack (k : Nat)
  | dropGraph (graph : TermId)
  | evictSubject (key : TermId × TermId × Nat)
  | evictOrder (key : (TermId × TermId × TermId) × Nat)
  | start (i : ι) (call : ReadCall)
  | read (i : ι)

/-- Epochs are 64-bit numbers. -/
def epochModulus : Nat := 2 ^ 64

namespace ReadCaches

def evictSubject (caches : ReadCaches) (key : TermId × TermId × Nat) : ReadCaches :=
  { caches with subjects := Function.update caches.subjects key none }

def evictOrder (caches : ReadCaches) (key : (TermId × TermId × TermId) × Nat) : ReadCaches :=
  { caches with orders := Function.update caches.orders key none }

/-- The end of `delete_graph`: all entries of the graph go. -/
def dropGraph (caches : ReadCaches) (graph : TermId) : ReadCaches where
  subjects key := if key.1 = graph then none else caches.subjects key
  orders key := if key.1.1 = graph then none else caches.orders key

end ReadCaches

section System

variable {ι : Type} [DecidableEq ι] (decode : TermId → Text) (opened : List EncodedQuad)

def CacheState.advance (s : CacheState ι) (r : Reader) : ReadCaches × ReadProgress :=
  readNext decode (rowsAfter opened s.log.history) (s.log.epochs (shardOf r.call.graph)) s.caches
    r.call r.progress

/-- A reader that can start a call. -/
def Reader.isFree : Option Reader → Bool
  | none => true
  | some ⟨_, _, .done _⟩ => true
  | some _ => false

def cacheStep (s : CacheState ι) (label : CacheStep ι) (s' : CacheState ι) : Prop :=
  match label with
  | .write mutations => s' = { s with log := s.log.write mutations }
  | .publish k =>
    ∃ mutations, s.log.history[k]? = some mutations ∧ k ∉ s.log.published ∧
      s' = { s with log := s.log.publish shardsOf epochModulus k mutations }
  | .giveBack k =>
    k ∈ s.log.published ∧ k ∉ s.log.returned ∧ s' = { s with log := s.log.giveBack k }
  | .dropGraph graph =>
    s' = { s with log := s.log.advance epochModulus (shardOf graph),
                  caches := s.caches.dropGraph graph }
  | .evictSubject key => s' = { s with caches := s.caches.evictSubject key }
  | .evictOrder key => s' = { s with caches := s.caches.evictOrder key }
  | .start i call =>
    Reader.isFree (s.readers i) = true ∧
      s' = { s with readers := Function.update s.readers i (some ⟨call, s.log.returned, .begun⟩) }
  | .read i =>
    ∃ r, s.readers i = some r ∧
      s' = { s with caches := (s.advance decode opened r).1,
                    readers := Function.update s.readers i
                      (some { r with progress := (s.advance decode opened r).2 }) }

/-- A store that has been opened with some rows. -/
def cacheSystem : System (CacheState ι) (CacheStep ι) where
  init s := s = ⟨⟨[], [], [], fun _ => 0⟩, ⟨fun _ => none, fun _ => none⟩, fun _ => none⟩
  step := cacheStep decode opened

/-- No epoch comes round to zero in the step. -/
def NoWrap (s : CacheState ι) : CacheStep ι → Prop
  | .publish k => ∀ mutations, s.log.history[k]? = some mutations →
      ∀ shard, s.log.epochs shard + (shardsOf mutations).count shard < epochModulus
  | .dropGraph graph => s.log.epochs (shardOf graph) + 1 < epochModulus
  | .write _ | .giveBack _ | .evictSubject _ | .evictOrder _ | .start _ _ | .read _ => True

structure CacheInv (s : CacheState ι) (stamp : Nat → Nat → Nat) : Prop where
  stamped : Stamped shardsOf s.log stamp
  caches : CachesOk decode opened s.log stamp s.caches
  readers : ∀ i r, s.readers i = some r → ReaderOk decode opened s.log stamp r

variable {decode opened} {s s' : CacheState ι} {stamp : Nat → Nat → Nat}

omit [DecidableEq ι] in
/-- A step of the log alone. -/
theorem CacheInv.withLog (h : CacheInv decode opened s stamp) {log' : CommitLog}
    {stamp' : Nat → Nat → Nat} (hstamped : Stamped shardsOf log' stamp')
    (hext : Continues shardsOf s.log stamp log' stamp') :
    CacheInv decode opened { s with log := log' } stamp' where
  stamped := hstamped
  caches := h.caches.mono hext
  readers i r hr := by
    obtain ⟨hsince, hprogress⟩ := h.readers i r hr
    exact ⟨fun k hk => hext.published k (hsince k hk), hprogress.mono hsince hext⟩

omit [DecidableEq ι] in
/-- Fewer entries know as much. -/
theorem CacheInv.withFewer (h : CacheInv decode opened s stamp) {caches' : ReadCaches}
    (hsubjects : ∀ key entries, caches'.subjects key = some entries →
      s.caches.subjects key = some entries)
    (horders : ∀ key objects, caches'.orders key = some objects →
      s.caches.orders key = some objects) :
    CacheInv decode opened { s with caches := caches' } stamp where
  stamped := h.stamped
  caches := ⟨fun _ _ _ _ hcached => h.caches.subjects _ _ _ _ (hsubjects _ _ hcached),
    fun _ _ _ _ _ hcached => h.caches.orders _ _ _ _ _ (horders _ _ hcached)⟩
  readers := h.readers

theorem update_none_eq_some {κ α : Type} [DecidableEq κ] {f : κ → Option α} {key key' : κ} {a : α}
    (h : update f key none key' = some a) : f key' = some a := by
  by_cases hkey : key' = key
  · subst hkey
    rw [update_self] at h
    exact absurd h (by simp)
  · rwa [update_of_ne hkey] at h

theorem CacheInv.withReader (h : CacheInv decode opened s stamp) {caches' : ReadCaches} {i : ι}
    {r : Reader} (hcaches : CachesOk decode opened s.log stamp caches')
    (hr : ReaderOk decode opened s.log stamp r) :
    CacheInv decode opened
      ⟨s.log, caches', update s.readers i (some r)⟩ stamp where
  stamped := h.stamped
  caches := hcaches
  readers j r' hr' := by
    rcases update_eq_some hr' with ⟨-, rfl⟩ | hold
    · exact hr
    · exact h.readers j r' hold

/-- **Every step** keeps the invariant, if no epoch wraps around in it. -/
theorem cacheInv_step {label : CacheStep ι} (h : CacheInv decode opened s stamp)
    (hwrap : NoWrap s label) (hstep : cacheStep decode opened s label s') :
    ∃ stamp', CacheInv decode opened s' stamp' := by
  cases label with
  | write mutations =>
    obtain rfl := hstep
    exact ⟨stamp, h.withLog (h.stamped.write mutations) (h.stamped.continues_write mutations)⟩
  | publish k =>
    obtain ⟨mutations, hmutations, hnew, rfl⟩ := hstep
    have hfits := hwrap mutations hmutations
    exact ⟨_, h.withLog (h.stamped.publish hmutations hfits)
      (Stamped.continues_publish hmutations hnew hfits)⟩
  | giveBack k =>
    obtain ⟨hk, -, rfl⟩ := hstep
    exact ⟨stamp, h.withLog (h.stamped.giveBack hk) (continues_giveBack k)⟩
  | dropGraph graph =>
    obtain rfl := hstep
    exact ⟨stamp, (h.withLog (h.stamped.advance hwrap) (continues_advance hwrap)).withFewer
      (fun _ _ hkept => (Option.ite_none_left_eq_some.mp hkept).2)
      fun _ _ hkept => (Option.ite_none_left_eq_some.mp hkept).2⟩
  | evictSubject key =>
    obtain rfl := hstep
    exact ⟨stamp, h.withFewer (fun _ _ => update_none_eq_some) fun _ _ => id⟩
  | evictOrder key =>
    obtain rfl := hstep
    exact ⟨stamp, h.withFewer (fun _ _ => id) fun _ _ => update_none_eq_some⟩
  | start i call =>
    obtain ⟨-, rfl⟩ := hstep
    exact ⟨stamp, h.withReader h.caches ⟨h.stamped.returned, trivial⟩⟩
  | read i =>
    obtain ⟨r, hr, rfl⟩ := hstep
    have hreader := h.readers i r hr
    obtain ⟨hcaches, hprogress⟩ := readNext_ok h.stamped h.caches hreader.since hreader.progress
    exact ⟨stamp, h.withReader hcaches ⟨hreader.since, hprogress⟩⟩

theorem cacheInv_reachable (hreach : Reachable (cacheSystem decode opened) NoWrap s) :
    ∃ stamp, CacheInv decode opened s stamp := by
  refine Reachable.invariant (P := fun s => ∃ stamp, CacheInv decode opened s stamp) ?_ ?_ hreach
  · rintro _ rfl
    exact ⟨fun _ _ => 0, ⟨nofun, nofun, nofun⟩, ⟨nofun, nofun⟩, nofun⟩
  · rintro s label s' ⟨stamp, h⟩ hwrap hstep
    exact cacheInv_step h hwrap hstep

theorem shardOf_mem_shardsOf {mutations : List QuadMutation} {q : EncodedQuad} {live : Bool}
    (h : lastMutation mutations q = some live) : shardOf q.graph ∈ shardsOf mutations := by
  obtain ⟨m, hm, -⟩ := Option.map_eq_some_iff.mp h
  have hquad : m.change.1 = q := by simpa using find?_some hm
  have hmem : m ∈ mutations := mem_reverse.mp (mem_of_find?_eq_some hm)
  refine mem_map_of_mem (mem_dedup.mpr ?_)
  exact mem_map.mpr ⟨m, hmem, by rw [hquad]⟩

theorem ReadCall.Covers.graph_eq {call : ReadCall} {q : EncodedQuad} (h : call.Covers q) :
    call.graph = q.graph := by
  cases call with
  | subjectEntries graph subject excluded | orderedObjects graph subject predicate => exact h.1.symm

variable (decode opened) in
/-- **The subject caches are never stale.** In every run in which no epoch wraps around: a call that
started after a commit had returned has the quads that the commit made live, and none that it
removed, unless a later commit has changed them. -/
theorem subject_caches_fresh (hreach : Reachable (cacheSystem decode opened) NoWrap s) {i : ι}
    {r : Reader} {answer : ReadAnswer} (hr : s.readers i = some r)
    (hdone : r.progress = .done answer) {k : Nat} {mutations : List QuadMutation} {q : EncodedQuad}
    {live : Bool} (hk : k ∈ r.since) (hmutations : s.log.history[k]? = some mutations)
    (hlive : lastMutation mutations q = some live)
    (hlater : ∀ j later, k < j → s.log.history[j]? = some later → lastMutation later q = none)
    (hcall : r.call.Covers q) : answer.Sees q ↔ live = true := by
  obtain ⟨stamp, hinv⟩ := cacheInv_reachable hreach
  have hprogress := (hinv.readers i r hr).progress
  rw [hdone] at hprogress
  obtain ⟨n, -, hcontains, rfl⟩ := hprogress
  have htouches : s.log.Touches shardsOf k (shardOf r.call.graph) :=
    ⟨mutations, hmutations, hcall.graph_eq ▸ shardOf_mem_shardsOf hlive⟩
  rw [sees_answer hcall]
  exact mem_rowsAfter (hcontains k hk htouches) hmutations hlive hlater

end System

def cachedQuad : EncodedQuad := ⟨1, 2, 3, 4⟩

def siblingQuad : EncodedQuad := ⟨1, 2, 3, 5⟩

/-! ## Epochs that wrap around

A reader caches the empty rows of a subject under the first epoch. After the next commit they are
not found any more, but after 2^64 commits the epoch is the first one again. -/

/-- The first commit inserts one quad; the others insert and remove another one in turn. -/
def wrapBatch : Nat → List QuadMutation
  | 0 => [.insert cachedQuad]
  | n + 1 => [if n % 2 = 0 then .insert siblingQuad else .remove siblingQuad]

def wrapLog (n : Nat) : CommitLog where
  history := (List.range n).map wrapBatch
  published := (List.range n).reverse
  returned := (List.range n).reverse
  epochs shard := if shard = shardOf 1 then n % epochModulus else 0

/-- The state after the first call and some commits. -/
def wrapState (n : Nat) : CacheState Unit where
  log := wrapLog n
  caches := ReadCaches.installSubject ⟨fun _ => none, fun _ => none⟩ (1, 2, 0) []
  readers _ := some ⟨.subjectEntries 1 2 none, [], .done (.entries [])⟩

theorem wrapLog_zero : wrapLog 0 = ⟨[], [], [], fun _ => 0⟩ := by
  simp [wrapLog]

theorem shardsOf_wrapBatch (n : Nat) : shardsOf (wrapBatch n) = [shardOf 1] := by
  cases n with
  | zero => rfl
  | succ n =>
    rw [wrapBatch]
    split
    · rfl
    · rfl

/-- One more commit. -/
theorem wrapLog_succ (n : Nat) :
    (((wrapLog n).write (wrapBatch n)).publish shardsOf epochModulus n (wrapBatch n)).giveBack n =
      wrapLog (n + 1) := by
  have hepochs : (shardsOf (wrapBatch n)).foldl (bump epochModulus) (wrapLog n).epochs =
      (wrapLog (n + 1)).epochs := by
    funext shard
    rw [shardsOf_wrapBatch, foldl_cons, foldl_nil, bump]
    by_cases hshard : shard = shardOf 1
    · subst hshard
      simp only [wrapLog, if_true, update_self]
      exact Nat.mod_add_mod n epochModulus 1
    · rw [update_of_ne hshard]
      simp only [wrapLog, if_neg hshard]
  simp only [Log.giveBack, Log.publish, Log.write, hepochs]
  simp [wrapLog, range_succ]

theorem reachable_wrapState_zero :
    Reachable (cacheSystem (fun _ => []) []) NoWrap (wrapState 0) := by
  have hinit : Reachable (cacheSystem (fun _ => []) []) NoWrap
      (⟨wrapLog 0, ⟨fun _ => none, fun _ => none⟩, fun _ => none⟩ : CacheState Unit) :=
    .init (by rw [wrapLog_zero]; rfl)
  have hstarted := hinit.step (CacheStep.start () (.subjectEntries 1 2 none)) trivial ⟨rfl, rfl⟩
  have hepoch := hstarted.step (CacheStep.read ()) trivial ⟨_, rfl, rfl⟩
  have hmissed := hepoch.step (CacheStep.read ()) trivial ⟨_, rfl, rfl⟩
  have hscanned := hmissed.step (CacheStep.read ()) trivial ⟨_, rfl, rfl⟩
  have hdone := hscanned.step (CacheStep.read ()) trivial ⟨_, rfl, rfl⟩
  exact hdone

theorem reachable_wrapState_succ {allowed : CacheState Unit → CacheStep Unit → Prop} {n : Nat}
    (h : Reachable (cacheSystem (fun _ => []) []) allowed (wrapState n))
    (hallowed : ∀ s, allowed s (.write (wrapBatch n)) ∧ allowed s (.giveBack n))
    (hpublish : ∀ s, s.log = (wrapLog n).write (wrapBatch n) → allowed s (.publish n)) :
    Reachable (cacheSystem (fun _ => []) []) allowed (wrapState (n + 1)) := by
  have hwritten := h.step (CacheStep.write (wrapBatch n)) (hallowed _).1 rfl
  have hnew : n ∉ (wrapLog n).published := by simp [wrapLog]
  have hbatch : ((wrapLog n).write (wrapBatch n)).history[n]? = some (wrapBatch n) := by
    simp [wrapLog, Log.write]
  have hpublished := hwritten.step (CacheStep.publish n) (hpublish _ rfl)
    ⟨wrapBatch n, hbatch, hnew, rfl⟩
  have hreturned := hpublished.step (CacheStep.giveBack n) (hallowed _).2
    ⟨mem_cons_self, hnew, rfl⟩
  have hlog := wrapLog_succ n
  rw [wrapState, ← hlog]
  exact hreturned

/-- The rows cached before the first commit are without its quad; a call after it sees the quad. -/
theorem subject_caches_fresh_insert :
    ∃ (s : CacheState Unit) (r : Reader) (answer : ReadAnswer),
      Reachable (cacheSystem (fun _ => []) []) NoWrap s ∧ s.caches.subjects (1, 2, 0) = some [] ∧
      s.readers () = some r ∧ r.progress = .done answer ∧ 0 ∈ r.since ∧
      s.log.history[0]? = some [.insert cachedQuad] ∧ (answer.Sees cachedQuad ↔ true = true) := by
  have hfits : ∀ s : CacheState Unit, s.log = (wrapLog 0).write (wrapBatch 0) →
      NoWrap s (.publish 0) := by
    rintro ⟨_, caches, readers⟩ rfl mutations h shard
    cases h
    have hcount : (shardsOf [.insert cachedQuad]).count shard ≤ 1 := count_le_length
    have hzero : (wrapLog 0).epochs shard = 0 := by rw [wrapLog_zero]
    show (wrapLog 0).epochs shard + (shardsOf [.insert cachedQuad]).count shard < epochModulus
    rw [hzero, epochModulus]
    omega
  have hreturned := reachable_wrapState_succ reachable_wrapState_zero
    (fun _ => ⟨trivial, trivial⟩) hfits
  have hepoch : (wrapState 1).log.epochs (shardOf 1) = 1 := by
    simp [wrapState, wrapLog, epochModulus]
  have hstarted := hreturned.step (CacheStep.start () (.subjectEntries 1 2 none)) trivial ⟨rfl, rfl⟩
  have hread := hstarted.step (CacheStep.read ()) trivial ⟨_, rfl, rfl⟩
  have hmissed := hread.step (CacheStep.read ()) trivial ⟨_, rfl, rfl⟩
  have hscanned := hmissed.step (CacheStep.read ()) trivial ⟨_, rfl, rfl⟩
  have hdone := hscanned.step (CacheStep.read ()) trivial ⟨_, rfl, rfl⟩
  -- the epoch that the call reads is not the key of the entry
  simp only [CacheState.advance, readNext, ReadCall.graph, ReadCall.subject, update_idem,
    finishEntries, hepoch] at hdone
  let r : Reader := ⟨.subjectEntries 1 2 none, [0], .done (.entries [(3, 4)])⟩
  refine ⟨_, r, .entries [(3, 4)], hdone, rfl, rfl, rfl, mem_cons_self, rfl, ?_⟩
  refine subject_caches_fresh (fun _ => []) [] hdone (i := ()) (r := r) rfl rfl mem_cons_self rfl
    rfl (fun j later hj hhistory => ?_) ⟨rfl, rfl, Option.some_ne_none _⟩
  exact absurd (List.getElem?_eq_some_iff.mp hhistory).1 (Nat.not_lt.mpr hj)

theorem lastMutation_wrapBatch_succ (n : Nat) : lastMutation (wrapBatch (n + 1)) cachedQuad = none := by
  rw [wrapBatch]
  split
  · rfl
  · rfl

/-- After 2^64 commits a call does not see the quad of the first one, though that commit returned
before the call started and no other commit has changed the quad. -/
theorem subject_cache_wraps :
    ∃ (s : CacheState Unit) (r : Reader) (answer : ReadAnswer),
      Reachable (cacheSystem (fun _ => []) []) anyStep s ∧ s.readers () = some r ∧
      r.progress = .done answer ∧ 0 ∈ r.since ∧ s.log.history[0]? = some [.insert cachedQuad] ∧
      (∀ j later, 0 < j → s.log.history[j]? = some later → lastMutation later cachedQuad = none) ∧
      r.call.Covers cachedQuad ∧ ¬answer.Sees cachedQuad := by
  -- all that matters of the number of commits is that the epoch is back at its first value
  obtain ⟨n, hpos, hwrapped⟩ : ∃ n, 0 < n ∧ n % epochModulus = 0 :=
    ⟨epochModulus, Nat.two_pow_pos 64, Nat.mod_self _⟩
  have hepoch : (wrapState n).log.epochs (shardOf 1) = 0 := by simp [wrapState, wrapLog, hwrapped]
  have hwraps : ∀ n, Reachable (cacheSystem (fun _ => []) []) anyStep (wrapState n) := by
    intro n
    induction n with
    | zero => exact reachable_wrapState_zero.mono fun _ _ _ => trivial
    | succ n ih => exact reachable_wrapState_succ ih (fun _ => ⟨trivial, trivial⟩) fun _ _ => trivial
  have hstarted := (hwraps n).step
    (CacheStep.start () (.subjectEntries 1 2 none)) trivial ⟨rfl, rfl⟩
  have hread := hstarted.step (CacheStep.read ()) trivial ⟨_, rfl, rfl⟩
  have hdone := hread.step (CacheStep.read ()) trivial ⟨_, rfl, rfl⟩
  refine ⟨_, ⟨.subjectEntries 1 2 none, (range n).reverse, .done (.entries [])⟩, .entries [],
    hdone, ?reader, rfl, ?_, ?_, ?_, ⟨rfl, rfl, nofun⟩, nofun⟩
  case reader =>
    -- the epoch that the call reads is the key of the entry
    have hcached : (wrapState n).caches.subjects (1, 2, (wrapState n).log.epochs (shardOf 1)) =
        some [] := by
      rw [hepoch]
      rfl
    simp only [CacheState.advance, readNext, ReadCall.graph, ReadCall.subject, update_self]
    rw [hcached]
    rfl
  · simpa using hpos
  · show ((range n).map wrapBatch)[0]? = _
    rw [getElem?_map, getElem?_range hpos]
    rfl
  · intro j later hj hlater
    have hlater : ((range n).map wrapBatch)[j]? = some later := hlater
    rw [getElem?_map] at hlater
    obtain ⟨k, hk, rfl⟩ := Option.map_eq_some_iff.mp hlater
    obtain ⟨hjn, rfl⟩ := List.getElem?_eq_some_iff.mp hk
    rw [List.getElem_range]
    obtain ⟨m, rfl⟩ : ∃ m, j = m + 1 := ⟨j - 1, by omega⟩
    exact lastMutation_wrapBatch_succ m

end Craqle
